import JobQueue.Decimal.Form
import JobQueue.Json.Basic

/-!
# JobQueue.Json.Printer

Documents as text without blanks. Inside a string a quote, a backslash and the
characters below the blank are escaped, and nothing else is.

Every printer takes the text that follows, so that the text of a document is
built from its end.
-/

namespace JobQueue.Json

open Text

/-! ## Scalars -/

/-- The form of double-precision numbers in documents. -/
def numberForm : Decimal.Form := ⟨-5, 15, ['+']⟩

/-- The characters of a number. -/
def numberChars : Number → List Char
  | .int n => signed n
  | .float x => if x.isFinite then numberForm.chars x else ['n', 'u', 'l', 'l']

/-- A character inside a string. -/
def escapeChar (c : Char) : List Char :=
  if c = '"' then ['\\', '"']
  else if c = '\\' then ['\\', '\\']
  else if 0x20 ≤ c.toNat then [c]
  else if c = '\n' then ['\\', 'n']
  else if c = '\r' then ['\\', 'r']
  else if c = '\t' then ['\\', 't']
  else if c.toNat = 8 then ['\\', 'b']
  else if c.toNat = 12 then ['\\', 'f']
  else
    ['\\', 'u', '0', '0', Nat.digitChar (c.toNat / 16), Nat.digitChar (c.toNat % 16)]

/-- A string between its quotes, and what follows. -/
def emitString (s : String) (rest : List Char) : List Char :=
  '"' :: s.toList.flatMap escapeChar ++ '"' :: rest

/-! ## Documents -/

mutual

/-- A document and what follows. -/
def emit : Json → List Char → List Char
  | .null, rest => 'n' :: 'u' :: 'l' :: 'l' :: rest
  | .bool true, rest => 't' :: 'r' :: 'u' :: 'e' :: rest
  | .bool false, rest => 'f' :: 'a' :: 'l' :: 's' :: 'e' :: rest
  | .num n, rest => numberChars n ++ rest
  | .str s, rest => emitString s rest
  | .arr [], rest => '[' :: ']' :: rest
  | .arr (v :: items), rest => '[' :: emit v (emitItems items rest)
  | .obj [], rest => '{' :: '}' :: rest
  | .obj ((k, v) :: members), rest =>
      '{' :: emitString k (':' :: emit v (emitMembers members rest))

/-- The items after the first, the end of their array, and what follows. -/
def emitItems : List Json → List Char → List Char
  | [], rest => ']' :: rest
  | v :: items, rest => ',' :: emit v (emitItems items rest)

/-- The members after the first, the end of their object, and what follows. -/
def emitMembers : List (String × Json) → List Char → List Char
  | [], rest => '}' :: rest
  | (k, v) :: members, rest =>
      ',' :: emitString k (':' :: emit v (emitMembers members rest))

end

/-- The characters of a document. -/
def chars (v : Json) : List Char := emit v []

/-- The text of a document. -/
def render (v : Json) : String := String.ofList v.chars

end JobQueue.Json
