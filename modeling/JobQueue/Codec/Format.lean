import JobQueue.Json.Mismatch
import JobQueue.Text.Position

/-!
# JobQueue.Codec.Format

Typed values as JSON documents: a `Format` reads a value from a document and
writes it as one. `decode` and `encode` use a format and say, when it fails,
which type was meant.
-/

namespace JobQueue

/-- Why a value cannot be written as a document. -/
inductive Unwritable where
  /-- A map has a key that is not written as a text. -/
  | keyNotString
  /-- A map has a key that is infinite or no number. -/
  | keyNotFinite
  /-- A whole number needs more than 64 bits. -/
  | numberOutOfRange
  /-- The value refuses, in its own words. -/
  | refused (reason : String)
  deriving DecidableEq

/-- The wording of why a value cannot be written. Where a value's own words end with a
position, the position is written as all positions are. -/
def Unwritable.message : Unwritable → String
  | .keyNotString => "key must be a string"
  | .keyNotFinite => "float key must be finite (got NaN or +/-inf)"
  | .numberOutOfRange => "number out of range"
  | .refused reason => Text.Position.settled reason

/-- How the values of a type are read from documents and written as documents. -/
structure Format (α : Type) where
  /-- The name of the type in messages. -/
  name : String
  /-- The value that a document stands for. -/
  read : Json → Except Mismatch α
  /-- The document of a value. -/
  write : α → Except Unwritable Json

/-- Why a document was not decoded or a value not encoded; `what` names the type. -/
inductive CodecError where
  | encode (what : String) (cause : Unwritable)
  | decode (what : String) (cause : Mismatch)
  deriving DecidableEq

namespace CodecError

/-- The wording of a codec error. -/
def message : CodecError → String
  | .encode what cause => s!"Failed to encode {what}: {cause.message}"
  | .decode what cause => s!"Failed to decode {what}: {cause.message}"

/-- The wordings of the causes beneath a codec error. -/
def sources : CodecError → List String
  | .encode _ cause => [cause.message]
  | .decode _ cause => [cause.message]

end CodecError

namespace Format

/-- The value of a document. -/
def decode {α : Type} (f : Format α) (v : Json) : Except CodecError α :=
  (f.read v).mapError (.decode f.name)

/-- The document of a value. -/
def encode {α : Type} (f : Format α) (a : α) : Except CodecError Json :=
  (f.write a).mapError (.encode f.name)

/-- A document that is neither of the kind nor in the range that a reader expects. -/
def reject {α : Type} (expected : String) (v : Json) : Except Mismatch α :=
  .error (.wrongType (.ofJson v) expected)

/-! ## Scalars -/

/-- Documents as they are. -/
def document : Format Json where
  name := "document"
  read := .ok
  write := .ok

/-- The only value, written as null. -/
def unit : Format Unit where
  name := "()"
  read
    | .null => .ok ()
    | v => reject "unit" v
  write _ := .ok .null

/-- Truth values. -/
def bool : Format Bool where
  name := "bool"
  read
    | .bool b => .ok b
    | v => reject "a boolean" v
  write b := .ok (.bool b)

/-- A whole number between two bounds. -/
def readWhole (name : String) (lo hi : Int) : Json → Except Mismatch Int
  | .num (.int n) =>
      if lo ≤ n ∧ n ≤ hi then .ok n else .error (.wrongValue (.num (.int n)) name)
  | v => reject name v

/-- Whole numbers between two bounds as values of a type. -/
def whole {α : Type} (name : String) (lo hi : Int) (ofInt : Int → α) (toInt : α → Int) :
    Format α where
  name := name
  read v := (readWhole name lo hi v).map ofInt
  write a := .ok (.int (toInt a))

/-- Whole numbers of 8, 32 and 64 bits without a sign. -/
def u8 : Format UInt8 := whole "u8" 0 (2 ^ 8 - 1) (fun n => .ofNat n.toNat) fun n => n.toNat
def u32 : Format UInt32 := whole "u32" 0 (2 ^ 32 - 1) (fun n => .ofNat n.toNat) fun n => n.toNat
def u64 : Format UInt64 := whole "u64" 0 (2 ^ 64 - 1) (fun n => .ofNat n.toNat) fun n => n.toNat

/-- Whole numbers of 8, 32 and 64 bits with a sign. -/
def i8 : Format Int8 := whole "i8" (-2 ^ 7) (2 ^ 7 - 1) .ofInt Int8.toInt
def i32 : Format Int32 := whole "i32" (-2 ^ 31) (2 ^ 31 - 1) .ofInt Int32.toInt
def i64 : Format Int64 := whole "i64" (-2 ^ 63) (2 ^ 63 - 1) .ofInt Int64.toInt

/-- Whole numbers of 128 bits, of which documents hold those of 64 bits. -/
def u128 : Format (Fin (2 ^ 128)) where
  name := "u128"
  read v := (readWhole "u128" 0 (2 ^ 128 - 1) v).map fun n => Fin.ofNat _ n.toNat
  write n := if n.val < 2 ^ 64 then .ok (.int n.val) else .error .numberOutOfRange

/-- Whole numbers with a sign, of which documents hold those of 64 bits. -/
def i128 : Format Int where
  name := "i128"
  read := readWhole "i128" (-2 ^ 127) (2 ^ 127 - 1)
  write n := if -2 ^ 63 ≤ n ∧ n < 2 ^ 64 then .ok (.int n) else .error .numberOutOfRange

/-- Double-precision numbers; a whole number is read as the nearest one. -/
def f64 : Format Float where
  name := "f64"
  read
    | .num (.int n) => .ok (Float.ofInt n)
    | .num (.float x) => .ok x
    | v => reject "f64" v
  write x := .ok (.float x)

/-- Single-precision numbers, written with the digits of the same double. -/
def f32 : Format Float32 where
  name := "f32"
  read v := (f64.read v).map Float.toFloat32
  write x := .ok (.float x.toFloat)

/-- Texts. -/
def string : Format String where
  name := "alloc::string::String"
  read
    | .str s => .ok s
    | v => reject "a string" v
  write s := .ok (.str s)

/-- Texts that are of a form of their own. -/
def parsed {α : Type} (name expected : String) (parse : String → Except String α)
    (text : α → String) : Format α where
  name := name
  read
    | .str s => (parse s).mapError .malformed
    | v => reject expected v
  write a := .ok (.str (text a))

/-- Single characters, written as texts. -/
def char : Format Char where
  name := "char"
  read
    | .str s =>
        match s.toList with
        | [c] => .ok c
        | _ => .error (.wrongValue (.str s) "a character")
    | v => reject "a character" v
  write c := .ok (.str (String.ofList [c]))

/-! ## Compounds -/

/-- A value or nothing, written as null. -/
def option {α : Type} (f : Format α) : Format (Option α) where
  name := s!"core::option::Option<{f.name}>"
  read
    | .null => .ok none
    | v => (f.read v).map some
  write
    | none => .ok .null
    | some a => f.write a

/-- Values in a row. -/
def list {α : Type} (f : Format α) : Format (List α) where
  name := s!"alloc::vec::Vec<{f.name}>"
  read
    | .arr items => items.mapM f.read
    | v => reject "a sequence" v
  write as := do return .arr (← as.mapM f.write)

/-- Values by name. -/
def map {α : Type} (f : Format α) : Format (List (String × α)) where
  name := s!"alloc::collections::btree::map::BTreeMap<alloc::string::String, {f.name}>"
  read
    | .obj members => members.mapM fun (k, v) => do return (k, ← f.read v)
    | v => reject "a map" v
  write as := do return .object (← as.mapM fun (k, a) => do return (k, ← f.write a))

/-- More items than a reader has a use for. -/
def checkLength (count : Nat) (items : List Json) : Except Mismatch Unit :=
  if count < items.length then .error (.wrongLength items.length "fewer elements in array")
  else .ok ()

/-- The item at a place of a sequence. -/
def item {α : Type} (f : Format α) (index : Nat) (expected : String) (items : List Json) :
    Except Mismatch α :=
  match items[index]? with
  | some v => f.read v
  | none => .error (.wrongLength index expected)

/-- Two values, one after the other. -/
def pair {α β : Type} (f : Format α) (g : Format β) : Format (α × β) where
  name := s!"({f.name}, {g.name})"
  read
    | .arr items => do
        let a ← item f 0 "a tuple of size 2" items
        let b ← item g 1 "a tuple of size 2" items
        checkLength 2 items
        return (a, b)
    | v => reject "a tuple of size 2" v
  write p := do return .arr [← f.write p.1, ← g.write p.2]

end Format

end JobQueue
