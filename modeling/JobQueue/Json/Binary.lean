import JobQueue.Json.Printer
import JobQueue.Json.Relaxed
import JobQueue.Text.Pieces

/-!
# JobQueue.Json.Binary

Documents as bytes. A value begins with a header: four bits for its kind and one to
nine bytes for the size of what follows. Scalars are kept as they are written, and
arrays and objects hold their values one after the other.

- `Binary.encode` writes a document.
- `Binary.text?` gives the text of a document, in strict form.
- `Binary.append?` is the text of an array with one more item at its end.
-/

namespace JobQueue.Json.Binary

open Text

/-! ## Headers -/

/-- The kinds of values. -/
inductive Kind where
  | null
  | yes
  | no
  /-- A whole number in decimal digits. -/
  | whole
  /-- A whole number in hexadecimal digits. -/
  | hexadecimal
  | number
  /-- A number that may have no digit on one side of its point. -/
  | relaxedNumber
  /-- A string without escapes. -/
  | plain
  /-- A string with strict escapes. -/
  | escaped
  /-- A string with relaxed escapes. -/
  | relaxed
  /-- A string that has yet to be escaped. -/
  | raw
  | array
  | object
  deriving DecidableEq

/-- The kinds in the order of their numbers. -/
def Kind.all : List Kind :=
  [.null, .yes, .no, .whole, .hexadecimal, .number, .relaxedNumber, .plain, .escaped, .relaxed,
    .raw, .array, .object]

/-- The number of a kind. -/
def Kind.index (k : Kind) : Nat := Kind.all.idxOf k

theorem Kind.all_index (k : Kind) : Kind.all[k.index]? = some k := by cases k <;> rfl

theorem Kind.index_lt (k : Kind) : k.index < 16 := by cases k <;> decide

/-- What a value begins with. -/
structure Header where
  /-- The number of its kind. -/
  kind : Nat
  /-- The bytes of the header. -/
  length : Nat
  /-- The bytes of what follows. -/
  size : Nat
  deriving DecidableEq

/-- A number in bytes, the most significant first. -/
def ofBytes (bs : List UInt8) : Nat := bs.foldl (fun n b => 256 * n + b.toNat) 0

/-- A number in exactly `width` bytes; what does not fit is lost. -/
def toBytes : Nat → Nat → List UInt8
  | 0, _ => []
  | width + 1, n => toBytes width (n / 256) ++ [UInt8.ofNat (n % 256)]

/-- How many bytes after the first hold the size, by the upper half of the first. -/
def sizeBytes (upper : Nat) : Nat := if upper < 12 then 0 else 2 ^ (upper - 12)

/-- The size that the upper half of the first byte and the bytes after it give. -/
def sizeAfter (upper : Nat) (rest : List UInt8) : Nat :=
  if upper < 12 then upper else ofBytes (rest.take (sizeBytes upper))

/-- The header that bytes begin with, if they hold the whole value. -/
def header? : List UInt8 → Option Header
  | [] => none
  | b :: rest =>
      let upper := b.toNat / 16
      let size := sizeAfter upper rest
      if sizeBytes upper + size ≤ rest.length ∧ size < 2 ^ 32 then
        some ⟨b.toNat % 16, sizeBytes upper + 1, size⟩
      else none

/-- The upper half of the first byte of a value of a size: the shortest that has room. -/
def upperFor (size : Nat) : Nat :=
  if size < 12 then size else if size < 2 ^ 8 then 12 else if size < 2 ^ 16 then 13 else 14

/-- A value: its header and what follows. -/
def sized (k : Kind) (payload : List UInt8) : List UInt8 :=
  let upper := upperFor payload.length
  UInt8.ofNat (16 * upper + k.index) :: (toBytes (sizeBytes upper) payload.length ++ payload)

@[simp] theorem length_toBytes (width n : Nat) : (toBytes width n).length = width := by
  induction width generalizing n with
  | zero => rfl
  | succ w ih => simp [toBytes, ih]

/-- Reading back a number gives it modulo the width. -/
theorem ofBytes_toBytes (width n : Nat) : ofBytes (toBytes width n) = n % 256 ^ width := by
  induction width generalizing n with
  | zero => simp [toBytes, ofBytes, Nat.mod_one]
  | succ w ih =>
      have hd := ih (n / 256)
      simp only [ofBytes] at hd
      have hp : 256 ^ (w + 1) = 256 * 256 ^ w := by rw [Nat.pow_succ, Nat.mul_comm]
      simp only [toBytes, ofBytes, List.foldl_append, List.foldl_cons, List.foldl_nil, hd,
        UInt8.toNat_ofNat']
      rw [hp, Nat.mod_mul]
      omega

/-- A value is as long as its header says. -/
theorem length_le_of_header? {bs : List UInt8} {h : Header} (e : header? bs = some h) :
    h.length + h.size ≤ bs.length := by
  cases bs with
  | nil => cases e
  | cons b rest =>
      simp only [header?, Option.ite_none_right_eq_some, Option.some.injEq] at e
      obtain ⟨⟨hs, _⟩, rfl⟩ := e
      simp only [List.length_cons]
      omega

/-- The size of a value can be read off it. -/
theorem sizeAfter_toBytes {n : Nat} (rest : List UInt8) (h : n < 2 ^ 32) :
    sizeAfter (upperFor n) (toBytes (sizeBytes (upperFor n)) n ++ rest) = n := by
  unfold sizeAfter
  rw [List.take_append_of_le_length (by simp), List.take_of_length_le (by simp),
    ofBytes_toBytes]
  unfold upperFor sizeBytes
  by_cases h1 : n < 12
  · simp [h1]
  · by_cases h2 : n < 256
    · simp [h1, h2, Nat.mod_eq_of_lt]
    · by_cases h3 : n < 65536
      · simp [h1, h2, h3, Nat.mod_eq_of_lt]
      · simp [h1, h2, h3, Nat.mod_eq_of_lt h]

theorem upperFor_lt (n : Nat) : upperFor n < 15 := by
  unfold upperFor
  split
  · omega
  · split
    · decide
    · split <;> decide

/-- The header of a value tells its kind and its size, whatever follows. -/
theorem header?_sized (k : Kind) {payload : List UInt8} (rest : List UInt8)
    (h : payload.length < 2 ^ 32) :
    header? (sized k payload ++ rest) =
      some ⟨k.index, sizeBytes (upperFor payload.length) + 1, payload.length⟩ := by
  have hk := k.index_lt
  have hu := upperFor_lt payload.length
  have hn : (UInt8.ofNat (16 * upperFor payload.length + k.index)).toNat =
      16 * upperFor payload.length + k.index := by
    rw [UInt8.toNat_ofNat']
    omega
  have hq : (16 * upperFor payload.length + k.index) / 16 = upperFor payload.length := by omega
  have hr : (16 * upperFor payload.length + k.index) % 16 = k.index := by omega
  simp only [sized, List.cons_append, List.append_assoc, header?, hn, hq, hr,
    sizeAfter_toBytes _ h]
  rw [if_pos]
  simp only [List.length_append, length_toBytes]
  omega

/-! ## Writing -/

/-- A string: with its escapes, if it has any. -/
def encodeString (s : String) : List UInt8 :=
  let body := s.toList.flatMap escapeChar
  sized (if body = s.toList then .plain else .escaped) (bytes (String.ofList body))

mutual

/-- The bytes of a document. -/
def encode : Json → List UInt8
  | .null => sized .null []
  | .bool true => sized .yes []
  | .bool false => sized .no []
  | .num (.int n) => sized .whole (bytes (String.ofList (signed n)))
  | .num (.float x) =>
      if x.isFinite then sized .number (bytes (String.ofList (numberForm.chars x)))
      else sized .null []
  | .str s => encodeString s
  | .arr items => sized .array (encodeItems items)
  | .obj members => sized .object (encodeMembers members)

/-- The bytes of the items of an array. -/
def encodeItems : List Json → List UInt8
  | [] => []
  | v :: items => encode v ++ encodeItems items

/-- The bytes of the members of an object, each key before its value. -/
def encodeMembers : List (String × Json) → List UInt8
  | [] => []
  | (k, v) :: members => encodeString k ++ encode v ++ encodeMembers members

end

/-! ## Scalars as text

A byte stands for the character of its number here, so that a text that is cut
anywhere can still be put together again. -/

/-- The characters of bytes. -/
def letters (bs : List UInt8) : List Char := bs.map fun b => Char.ofNat b.toNat

/-- The bytes of characters. -/
def unletters (cs : List Char) : List UInt8 := cs.map fun c => UInt8.ofNat c.toNat

/-- Characters between quotes. -/
def quoted (cs : List Char) : List Char := '"' :: cs ++ ['"']

/-- A whole number in hexadecimal digits, after a sign and a mark of two characters, in
decimal digits. -/
def wholeOfHex (cs : List Char) : Option (List Char) :=
  match cs with
  | '-' :: cs => (hexNumber? (cs.drop 2)).map fun n => '-' :: Relaxed.boundedWhole n
  | '+' :: cs => (hexNumber? (cs.drop 2)).map Relaxed.boundedWhole
  | cs => (hexNumber? (cs.drop 2)).map Relaxed.boundedWhole

/-- A number with a zero after each point that has no digit there. -/
def withFraction : List Char → List Char
  | [] => []
  | c :: cs =>
      if c = '.' && !cs.head?.any isDigit then '.' :: '0' :: withFraction cs
      else c :: withFraction cs

/-- A number with a zero on each side of its point that has no digit. -/
def strictNumber : List Char → List Char
  | '-' :: '.' :: cs => '-' :: '0' :: withFraction ('.' :: cs)
  | '.' :: cs => '0' :: withFraction ('.' :: cs)
  | cs => withFraction cs

/-- Put characters before a text. -/
def before (cs : List Char) (text : Option (List Char)) : Option (List Char) := text.map (cs ++ ·)

/-- The inside of a string with strict escapes in the place of relaxed ones. -/
def strictString : List Char → Option (List Char)
  | [] => some []
  | '\\' :: '\'' :: cs => before ['\''] (strictString cs)
  | '\\' :: 'v' :: cs => before ['\\', 'u', '0', '0', '0', '9'] (strictString cs)
  | '\\' :: '0' :: cs => before ['\\', 'u', '0', '0', '0', '0'] (strictString cs)
  | '\\' :: 'x' :: a :: b :: cs => before ['\\', 'u', '0', '0', a, b] (strictString cs)
  | '\\' :: '\r' :: '\n' :: cs => strictString cs
  | '\\' :: '\u00e2' :: '\u0080' :: '\u00a8' :: cs => strictString cs
  | '\\' :: '\u00e2' :: '\u0080' :: '\u00a9' :: cs => strictString cs
  | '\\' :: c :: cs =>
      if c = 'x' || c = '\u00e2' then none
      else if c = '\r' || c = '\n' then strictString cs
      else before ['\\', c] (strictString cs)
  | ['\\'] => none
  | c :: cs => before (if c = '"' then ['\\', '"'] else [c]) (strictString cs)

/-- The text of a number or a string of a kind. A number has at least one character. -/
def scalar : Kind → List Char → Option (List Char)
  | .plain, cs => some (quoted cs)
  | .escaped, cs => some (quoted cs)
  | .relaxed, cs => (strictString cs).map quoted
  | .raw, cs => some (quoted (cs.flatMap escapeChar))
  | _, [] => none
  | .whole, cs => some cs
  | .number, cs => some cs
  | .hexadecimal, cs => wholeOfHex cs
  | .relaxedNumber, cs => some (strictNumber cs)
  | _, _ => none

/-! ## Documents as text -/

/-- A reader of the front of bytes gives the text of a value and the bytes after it. -/
abbrev Taker := List UInt8 → Option (List Char × List UInt8)

/-- The texts of the values up to the last `left` bytes, where one of them has to end.
`fuel` is more than the number of bytes before those. -/
def items (item : Taker) (left : Nat) : Nat → List UInt8 → Option (List (List Char))
  | 0, _ => none
  | fuel + 1, bs =>
      if bs.length < left then none
      else if bs.length = left then some []
      else do
        let (text, bs) ← item bs
        return text :: (← items item left fuel bs)

/-- The texts of members, whose keys and values alternate. -/
def members : List (List Char) → Option (List (List Char))
  | [] => some []
  | [_] => none
  | k :: v :: rest => (members rest).map ((k ++ ':' :: v) :: ·)

/-- The values in a value, which end where the `rest` begins. -/
def parts (item : Taker) (h : Header) (inner rest : List UInt8) : Option (List (List Char)) :=
  items item rest.length (h.size + 1) inner

/-- A value with no more than `depth` levels. Nothing follows the header of a null or a
truth value, whatever its size. -/
def value : Nat → Taker
  | 0, _ => none
  | depth + 1, bs => do
      let h ← header? bs
      let inner := bs.drop h.length
      let rest := inner.drop h.size
      match ← Kind.all[h.kind]? with
      | .null => return (['n', 'u', 'l', 'l'], bs.drop 1)
      | .yes => return (['t', 'r', 'u', 'e'], bs.drop 1)
      | .no => return (['f', 'a', 'l', 's', 'e'], bs.drop 1)
      | .array =>
          let items ← parts (value depth) h inner rest
          return ('[' :: joined ',' items ++ [']'], rest)
      | .object =>
          let items ← members (← parts (value depth) h inner rest)
          return ('\x7b' :: joined ',' items ++ ['\x7d'], rest)
      | k => return (← scalar k (letters (inner.take h.size)), rest)

/-- Whether bytes are one value, as far as its header tells. -/
def isDocument (bs : List UInt8) : Bool :=
  match header? bs with
  | none => false
  | some h =>
      h.length + h.size == bs.length && h.kind < Kind.all.length &&
        (Kind.no.index < h.kind || h.size == 0)

/-- The bytes of the text of a document. -/
def text? (bs : List UInt8) : Option (List UInt8) :=
  (value (bs.length + 1) bs).map fun (text, _) => unletters text

/-! ## Appending -/

/-- Whether bytes are values in a row, as far as their headers tell. `fuel` is at least
the number of bytes. -/
def isRow : Nat → List UInt8 → Bool
  | _, [] => true
  | 0, _ :: _ => false
  | fuel + 1, b :: bs =>
      match header? (b :: bs) with
      | none => false
      | some h => isRow fuel ((b :: bs).drop (h.length + h.size))

/-- The text of a document with one more item at its end, if it is an array. -/
def append? (document item : List UInt8) : Option (List UInt8) := do
  let h ← header? document
  if h.kind = Kind.array.index then
    let inner := document.drop h.length
    if isRow inner.length inner then text? (sized .array (inner ++ item)) else none
  else text? document

end JobQueue.Json.Binary
