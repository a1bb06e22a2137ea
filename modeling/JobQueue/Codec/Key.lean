import JobQueue.Codec.Format

/-!
# JobQueue.Codec.Key

The keys of maps. A document has texts for keys; truth values, numbers and
characters are written as texts, and nothing else can be a key.
-/

namespace JobQueue

/-- A value that stands as the key of a map. -/
inductive Key where
  | text (s : String)
  | bool (b : Bool)
  | whole (n : Int64)
  | float (x : Float)
  | char (c : Char)
  | unit
  | absent
  | bytes (bs : List UInt8)

namespace Key

/-- The text of a key. -/
def write : Key → Except Unwritable String
  | text s => .ok s
  | bool b => .ok (if b then "true" else "false")
  | whole n => .ok (String.ofList (Text.signed n.toInt))
  | float x =>
      if x.isFinite then .ok (String.ofList (Json.numberChars (.float x)))
      else .error .keyNotFinite
  | char c => .ok (String.ofList [c])
  | unit | absent | bytes _ => .error .keyNotString

end Key

/-- A map with keys of any type, from its entries; of equal keys the last counts.
The first entry that cannot be written decides. -/
def Format.writeEntries (entries : List (Key × Json)) : Except Unwritable Json := do
  return .object (← entries.mapM fun (k, v) => do return (← k.write, v))

end JobQueue
