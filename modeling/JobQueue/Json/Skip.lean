import JobQueue.Json.Reader

/-!
# JobQueue.Json.Skip

Passing over a value that nobody asked for. Its form is checked and its meaning is
not: a number may be too large, an escape may be half of a pair, and arrays and
objects may be nested to any depth.

- `skipString`, `skipNumber` and `skipScalar` pass over what is no array or object.
- `skipValue` passes over any value, and keeps the brackets that are still open.
-/

namespace JobQueue.Json

open Text

/-! ## Scalars -/

/-- The rest after a string whose opening quote has been read. -/
def skipString : List Char → Except Fault (List Char)
  | [] => stopAt .eofInString []
  | c :: cs =>
      if c = '"' then .ok cs
      else if c ≠ '\\' then
        if c.toNat < 0x20 then stopAt .controlCharacter (c :: cs) else skipString cs
      else
        match cs with
        | [] => stopAt .eofInString []
        | e :: cs =>
            if e ≠ 'u' then
              if (shortEscape? e).isSome then skipString cs else stopIn .invalidEscape (e :: cs)
            else
              match cs with
              | a :: b :: c :: d :: cs =>
                  if (hexUnit? a b c d).isSome then skipString cs
                  else stopAtHex (a :: b :: c :: d :: cs)
              | cs => stopAtHex cs

/-- The rest after the exponent of a number, whose mark has been read. -/
def skipExponent (cs : List Char) : Except Fault (List Char) :=
  let cs :=
    match cs with
    | '+' :: rest => rest
    | '-' :: rest => rest
    | _ => cs
  if startsWithDigit cs then .ok (cs.dropWhile isDigit) else stopIn .invalidNumber cs

/-- The rest after the digits of a number before its point. -/
def skipFraction : List Char → Except Fault (List Char)
  | '.' :: cs =>
      if startsWithDigit cs then
        match cs.dropWhile isDigit with
        | 'e' :: cs => skipExponent cs
        | 'E' :: cs => skipExponent cs
        | cs => .ok cs
      else stopIn .invalidNumber cs
  | 'e' :: cs => skipExponent cs
  | 'E' :: cs => skipExponent cs
  | cs => .ok cs

/-- The rest after a number, whose sign has been read. -/
def skipNumber : List Char → Except Fault (List Char)
  | '0' :: cs => if startsWithDigit cs then stopIn .invalidNumber cs else skipFraction cs
  | cs =>
      if startsWithDigit cs then skipFraction (cs.dropWhile isDigit)
      else stopIn .invalidNumber cs

/-- The rest after a value that is neither an array nor an object. -/
def skipScalar : List Char → Except Fault (List Char)
  | [] => stopAt .eofInValue []
  | c :: cs =>
      if c = 'n' then word ['u', 'l', 'l'] cs
      else if c = 't' then word ['r', 'u', 'e'] cs
      else if c = 'f' then word ['a', 'l', 's', 'e'] cs
      else if c = '-' then skipNumber cs
      else if isDigit c then skipNumber (c :: cs)
      else if c = '"' then skipString cs
      else stopIn .expectedValue (c :: cs)

/-! ## Arrays and objects -/

/-- What is open around a place in a text. -/
inductive Bracket where
  | array
  | object
  deriving DecidableEq

/-- The character that ends what is open. -/
def Bracket.closing : Bracket → Char
  | .array => ']'
  | .object => '\x7d'

/-- The text from the value of a member on, whose key comes next. -/
def skipKey (cs : List Char) : Except Fault (List Char) :=
  match skipSpace cs with
  | [] => stopAt .eofInObject []
  | c :: cs => if c = '"' then do colon (← skipString cs) else stopIn .keyMustBeString (c :: cs)

/-- The text from the next value on, within what is open. -/
def skipToValue : Bracket → List Char → Except Fault (List Char)
  | .array, cs => .ok cs
  | .object, cs => skipKey cs

/-- Close what ends here, from the inside out: what is still open and the text from
the next value on. `fresh` tells that nothing stands in the innermost bracket yet. -/
def skipClosing : Bool → List Bracket → List Char → Except Fault (List Bracket × List Char)
  | _, [], cs => .ok ([], cs)
  | fresh, b :: outer, cs =>
      match skipSpace cs with
      | [] => stopAt (match b with | .array => .eofInList | .object => .eofInObject) []
      | c :: cs =>
          if c = ',' && !fresh then do return (b :: outer, ← skipToValue b cs)
          else if c = b.closing then skipClosing false outer cs
          else if fresh then do return (b :: outer, ← skipToValue b (c :: cs))
          else
            match b with
            | .array => stopIn .expectedListCommaOrEnd (c :: cs)
            | .object => stopIn .expectedObjectCommaOrEnd (c :: cs)

/-- The rest after the value that comes next and all that is open around it.
`fuel` is more than the number of characters. -/
def skipOpen : Nat → List Bracket → List Char → Except Fault (List Char)
  | 0, _, _ => stopAt .eofInValue []
  | fuel + 1, around, cs => do
      let (still, rest) ←
        match skipSpace cs with
        | '[' :: cs => skipClosing true (.array :: around) cs
        | '\x7b' :: cs => skipClosing true (.object :: around) cs
        | cs => do skipClosing false around (← skipScalar cs)
      if still.isEmpty then return rest else skipOpen fuel still rest

/-- The rest after a value. -/
def skipValue (cs : List Char) : Except Fault (List Char) := skipOpen (cs.length + 1) [] cs

end JobQueue.Json
