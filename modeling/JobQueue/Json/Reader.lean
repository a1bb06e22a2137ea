import JobQueue.Decimal.Nearest
import JobQueue.Json.Fault
import JobQueue.Text.Hexadecimal

/-!
# JobQueue.Json.Reader

Reading documents.

- Strings (`stringBody`), numbers (`number`) and the three words (`word`).
- `list` and `members` read an array or an object with any reader of its items,
  so nesting recurses on the depth alone: `value d` allows `d` levels.
- `parse` reads a whole text and allows 127 levels.

A number that is not whole, or does not fit 64 bits, is the nearest number of
double precision.
-/

namespace JobQueue.Json

open Text

/-! ## Words -/

/-- The rest of a word whose first character has been read. -/
def word : List Char → List Char → Except Fault (List Char)
  | [], cs => .ok cs
  | _ :: _, [] => stopAt .eofInValue []
  | w :: ws, c :: cs => if c = w then word ws cs else stopIn .expectedIdent (c :: cs)

/-! ## Strings -/

/-- The character of a backslash and one more character. -/
def shortEscape? (c : Char) : Option Char :=
  if c = '"' || c = '\\' || c = '/' then some c
  else if c = 'b' then some '\x08'
  else if c = 'f' then some '\x0c'
  else if c = 'n' then some '\n'
  else if c = 'r' then some '\r'
  else if c = 't' then some '\t'
  else none

/-- Four hexadecimal digits as a number. -/
def hexUnit? (a b c d : Char) : Option Nat := do
  return (((← hexValue? a) * 16 + (← hexValue? b)) * 16 + (← hexValue? c)) * 16 + (← hexValue? d)

/-- Stop where four hexadecimal digits do not stand. -/
def stopAtHex {α : Type} (cs : List Char) : Except Fault α :=
  if byteCount cs < 4 then stopAt .eofInString []
  else .error ⟨.invalidEscape, byteCount cs - 4⟩

/-- Put a character before the rest of a string. -/
def push (c : Char) (tail : Except Fault (List Char × List Char)) :
    Except Fault (List Char × List Char) :=
  tail.map fun (cs, rest) => (c :: cs, rest)

/-- The characters of a string after its opening quote. A character outside the
first 65536 may be escaped as a pair of halves, and no half stands alone. -/
def stringBody : Reader (List Char)
  | [] => stopAt .eofInString []
  | c :: cs =>
      if c = '"' then .ok ([], cs)
      else if c ≠ '\\' then
        if c.toNat < 0x20 then stopAt .controlCharacter cs
        else push c (stringBody cs)
      else
        match cs with
        | [] => stopAt .eofInString []
        | e :: cs =>
            if e ≠ 'u' then
              match shortEscape? e with
              | some x => push x (stringBody cs)
              | none => stopIn .invalidEscape (e :: cs)
            else
              match cs with
              | a :: b :: c :: d :: cs =>
                  match hexUnit? a b c d with
                  | none => stopAtHex (a :: b :: c :: d :: cs)
                  | some n =>
                      if 0xDC00 ≤ n ∧ n ≤ 0xDFFF then stopAt .loneSurrogate cs
                      else if n < 0xD800 ∨ 0xDBFF < n then push (Char.ofNat n) (stringBody cs)
                      else
                        match cs with
                        | [] => stopAt .eofInString []
                        | [x] =>
                            if x = '\\' then stopAt .eofInString []
                            else stopIn .unfinishedSurrogate [x]
                        | x :: y :: cs =>
                            if x ≠ '\\' then stopIn .unfinishedSurrogate (x :: y :: cs)
                            else if y ≠ 'u' then stopIn .unfinishedSurrogate (y :: cs)
                            else
                              match cs with
                              | a :: b :: c :: d :: cs =>
                                  match hexUnit? a b c d with
                                  | none => stopAtHex (a :: b :: c :: d :: cs)
                                  | some m =>
                                      if m < 0xDC00 ∨ 0xDFFF < m then
                                        stopAt .loneSurrogate cs
                                      else
                                        push
                                          (Char.ofNat ((n - 0xD800) * 1024 + (m - 0xDC00) + 0x10000))
                                          (stringBody cs)
                              | cs => stopAtHex cs
              | cs => stopAtHex cs

/-- A string after its opening quote. -/
def string : Reader String := fun cs =>
  (stringBody cs).map fun (s, rest) => (String.ofList s, rest)

/-! ## Numbers -/

/-- Take digits as long as the number they make stays below `bound`: the number
and the rest. -/
def takeDigits (bound : Nat) : Nat → List Char → Nat × List Char
  | n, c :: cs =>
      if isDigit c && n * 10 + digitValue c < bound then
        takeDigits bound (n * 10 + digitValue c) cs
      else (n, c :: cs)
  | n, [] => (n, [])

/-- Whether the rest begins with a digit. -/
def startsWithDigit : List Char → Bool
  | c :: _ => isDigit c
  | [] => false

/-- A sign, digits and a power of ten as a number. -/
def scaled (positive : Bool) (digits : Nat) (scale : Int) : Reader Number := fun rest =>
  match Decimal.nearest? digits scale with
  | none => stopAt .numberOutOfRange rest
  | some x => .ok (.float (if positive then x else -x), rest)

/-- The exponent of a number after its mark; `scale` is the power of ten that the
digits already count. An exponent past 31 bits makes zero or no number. -/
def exponentPart (positive : Bool) (digits : Nat) (scale : Int) : Reader Number := fun cs =>
  let (up, cs) : Bool × List Char :=
    match cs with
    | '+' :: rest => (true, rest)
    | '-' :: rest => (false, rest)
    | _ => (true, cs)
  match cs with
  | [] => stopAt .eofInValue []
  | c :: rest =>
      if !isDigit c then stopIn .invalidNumber (c :: rest)
      else
        let (e, rest) := takeDigits (2 ^ 31) (digitValue c) rest
        if startsWithDigit rest then
          if digits ≠ 0 && up then stopAt .numberOutOfRange (rest.drop 1)
          else .ok (.float (if positive then 0.0 else -0.0), rest.dropWhile isDigit)
        else scaled positive digits (if up then scale + e else scale - e) rest

/-- The digits of a number after its point, and its exponent if it has one. -/
def fractionPart (positive : Bool) (whole : Nat) : Reader Number := fun cs =>
  let fraction := cs.takeWhile isDigit
  let digits := whole * 10 ^ fraction.length + Text.value fraction
  let scale : Int := -fraction.length
  let rest := cs.dropWhile isDigit
  if fraction.isEmpty then
    match rest with
    | [] => stopAt .eofInValue []
    | _ => stopIn .invalidNumber rest
  else
    match rest with
    | 'e' :: cs => exponentPart positive digits scale cs
    | 'E' :: cs => exponentPart positive digits scale cs
    | cs => scaled positive digits scale cs

/-- A number whose digits before the point have been read. -/
def afterWhole (positive : Bool) (digits : Nat) : Reader Number
  | '.' :: cs => fractionPart positive digits cs
  | 'e' :: cs => exponentPart positive digits 0 cs
  | 'E' :: cs => exponentPart positive digits 0 cs
  | cs =>
      if positive && digits < 2 ^ 64 then .ok (.int digits, cs)
      else if !positive && 0 < digits && digits ≤ 2 ^ 63 then .ok (.int (-digits), cs)
      else scaled positive digits 0 cs

/-- A number after its sign. -/
def number (positive : Bool) : Reader Number
  | [] => stopAt .eofInValue []
  | c :: cs =>
      if c = '0' then
        if startsWithDigit cs then stopIn .invalidNumber cs else afterWhole positive 0 cs
      else if isDigit c then
        afterWhole positive (Text.value (c :: cs.takeWhile isDigit)) (cs.dropWhile isDigit)
      else stopIn .invalidNumber (c :: cs)

/-! ## Scalars -/

/-- A value that is neither an array nor an object. -/
def scalar : Reader Json
  | [] => stopAt .eofInValue []
  | c :: cs =>
      if c = 'n' then (word ['u', 'l', 'l'] cs).map fun rest => (.null, rest)
      else if c = 't' then (word ['r', 'u', 'e'] cs).map fun rest => (.bool true, rest)
      else if c = 'f' then (word ['a', 'l', 's', 'e'] cs).map fun rest => (.bool false, rest)
      else if c = '-' then (number false cs).map fun (n, rest) => (.num n, rest)
      else if isDigit c then (number true (c :: cs)).map fun (n, rest) => (.num n, rest)
      else if c = '"' then (string cs).map fun (s, rest) => (.str s, rest)
      else stopIn .expectedValue (c :: cs)

/-! ## Arrays and objects -/

/-- A place between two items: whether another one follows, and the text from it
or from the bracket that ends the array. -/
def nextItem (first : Bool) (cs : List Char) : Except Fault (Bool × List Char) :=
  match skipSpace cs with
  | [] => stopAt .eofInList []
  | c :: cs =>
      if c = ']' then .ok (false, c :: cs)
      else if first then .ok (true, c :: cs)
      else if c = ',' then
        match skipSpace cs with
        | [] => stopAt .eofInValue []
        | c :: cs =>
            if c = ']' then stopIn .trailingComma (c :: cs) else .ok (true, c :: cs)
      else stopIn .expectedListCommaOrEnd (c :: cs)

/-- The items of an array after its bracket or an item, and the end of the array.
`fuel` is at least the number of characters. -/
def list {α : Type} (item : Reader α) : Nat → Bool → Reader (List α)
  | 0, _, _ => stopAt .eofInList []
  | fuel + 1, first, cs => do
      let (more, cs) ← nextItem first cs
      if more then
        let (v, cs) ← item cs
        let (rest, cs) ← list item fuel false cs
        return (v :: rest, cs)
      else
        return ([], cs.drop 1)

/-- The colon after a key. -/
def colon (cs : List Char) : Except Fault (List Char) :=
  match skipSpace cs with
  | [] => stopAt .eofInObject []
  | c :: cs => if c = ':' then .ok cs else stopIn .expectedColon (c :: cs)

/-- A place between two members: whether another one follows, and the text after
the quote that opens its key or from the brace that ends the object. -/
def nextKey (first : Bool) (cs : List Char) : Except Fault (Bool × List Char) :=
  match skipSpace cs with
  | [] => stopAt .eofInObject []
  | c :: cs =>
      if c = '\x7d' then .ok (false, c :: cs)
      else if first then
        if c = '"' then .ok (true, cs) else stopIn .keyMustBeString (c :: cs)
      else if c = ',' then
        match skipSpace cs with
        | [] => stopAt .eofInValue []
        | c :: cs =>
            if c = '"' then .ok (true, cs)
            else if c = '\x7d' then stopIn .trailingComma (c :: cs)
            else stopIn .keyMustBeString (c :: cs)
      else stopIn .expectedObjectCommaOrEnd (c :: cs)

/-- The members of an object after its brace or a member, and the end of the
object. `fuel` is at least the number of characters. -/
def members (item : Reader Json) : Nat → Bool → Reader (List (String × Json))
  | 0, _, _ => stopAt .eofInObject []
  | fuel + 1, first, cs => do
      let (more, cs) ← nextKey first cs
      if more then
        let (k, cs) ← string cs
        let cs ← colon cs
        let (v, cs) ← item cs
        let (rest, cs) ← members item fuel false cs
        return ((k, v) :: rest, cs)
      else
        return ([], cs.drop 1)

/-- A value that may hold as many levels of arrays and objects as `depth` says. -/
def value (depth : Nat) : Reader Json := fun cs =>
  match skipSpace cs with
  | [] => stopAt .eofInValue []
  | c :: cs =>
      if c = '[' then
        match depth with
        | 0 => stopIn .recursionLimit (c :: cs)
        | d + 1 => (list (value d) (cs.length + 1) true cs).map fun (vs, rest) => (.arr vs, rest)
      else if c = '\x7b' then
        match depth with
        | 0 => stopIn .recursionLimit (c :: cs)
        | d + 1 =>
            (members (value d) (cs.length + 1) true cs).map fun (ms, rest) => (object ms, rest)
      else scalar (c :: cs)

/-! ## Texts -/

/-- The levels of arrays and objects that a document may have. -/
def depthLimit : Nat := 127

/-- Read a whole text, with nothing but blanks after what `item` reads. -/
def whole {α : Type} (item : Reader α) (cs : List Char) : Except Fault α := do
  let (v, rest) ← item cs
  match skipSpace rest with
  | [] => return v
  | rest => stopIn .trailingCharacters rest

/-- Read a text that is one document. -/
def parse (s : String) : Except Fault Json := whole (value depthLimit) s.toList

end JobQueue.Json
