import JobQueue.Json.Mismatch

/-!
# JobQueue.Json.Fault

Why a text is no document, and where.

A reader keeps only the text that is still to come, so a place is the number of
bytes from there to the end; `Fault.message` turns it into a line and a column,
counted in bytes.
-/

namespace JobQueue.Json

open Text

/-- Why the reading of a document stops. -/
inductive Cause where
  /-- The text ends within a value, a list, an object or a string. -/
  | eofInValue
  | eofInList
  | eofInObject
  | eofInString
  /-- Something else stands in the place of a mark or a value. -/
  | expectedColon
  | expectedListCommaOrEnd
  | expectedObjectCommaOrEnd
  | expectedIdent
  | expectedValue
  | keyMustBeString
  | trailingComma
  | trailingCharacters
  /-- A number is not written as one, or is too large. -/
  | invalidNumber
  | numberOutOfRange
  /-- A string holds what it must not. -/
  | invalidEscape
  | controlCharacter
  | loneSurrogate
  | unfinishedSurrogate
  /-- Arrays and objects are nested too deeply. -/
  | recursionLimit
  /-- The text is a document, but not one of the form asked for. -/
  | mismatch (m : Mismatch)
  deriving DecidableEq

/-- The wording of a cause. -/
def Cause.message : Cause → String
  | .eofInValue => "EOF while parsing a value"
  | .eofInList => "EOF while parsing a list"
  | .eofInObject => "EOF while parsing an object"
  | .eofInString => "EOF while parsing a string"
  | .expectedColon => "expected `:`"
  | .expectedListCommaOrEnd => "expected `,` or `]`"
  | .expectedObjectCommaOrEnd => "expected `,` or `\x7d`"
  | .expectedIdent => "expected ident"
  | .expectedValue => "expected value"
  | .keyMustBeString => "key must be a string"
  | .trailingComma => "trailing comma"
  | .trailingCharacters => "trailing characters"
  | .invalidNumber => "invalid number"
  | .numberOutOfRange => "number out of range"
  | .invalidEscape => "invalid escape"
  | .controlCharacter => "control character (\\u0000-\\u001F) found while parsing a string"
  | .loneSurrogate => "lone leading surrogate in hex escape"
  | .unfinishedSurrogate => "unexpected end of hex escape"
  | .recursionLimit => "recursion limit exceeded"
  | .mismatch m => m.message

/-- A cause and its place. -/
structure Fault where
  /-- The cause. -/
  cause : Cause
  /-- The bytes from the place to the end of the text. -/
  left : Nat
  deriving DecidableEq

/-- The line and the column of a byte offset; both the line and the column before
its first byte are counted from `line` and `column`. -/
def position : List Char → Nat → Nat → Nat → Nat × Nat
  | [], _, line, column => (line, column)
  | c :: cs, offset, line, column =>
      if offset < c.utf8Size then (line, column + offset)
      else if c = '\n' then position cs (offset - 1) (line + 1) 0
      else position cs (offset - c.utf8Size) line (column + c.utf8Size)

/-- The wording of a fault in a text. -/
def Fault.message (f : Fault) (text : List Char) : String :=
  let (line, column) := position text (byteCount text - f.left) 1 0
  s!"{f.cause.message} at line {line} column {column}"

/-! ## Readers -/

/-- A reader of the front of a text gives what it read and the rest. -/
abbrev Reader (α : Type) := List Char → Except Fault (α × List Char)

/-- Stop just before the rest. -/
def stopAt {α : Type} (cause : Cause) (rest : List Char) : Except Fault α :=
  .error ⟨cause, byteCount rest⟩

/-- Stop just after the first byte of the rest. -/
def stopIn {α : Type} (cause : Cause) (rest : List Char) : Except Fault α :=
  .error ⟨cause, byteCount rest - 1⟩

/-- Whether a character may stand between the parts of a document. -/
def isSpace (c : Char) : Bool := c == ' ' || c == '\n' || c == '\t' || c == '\r'

/-- The text after its leading blanks. -/
def skipSpace (cs : List Char) : List Char := cs.dropWhile isSpace

end JobQueue.Json
