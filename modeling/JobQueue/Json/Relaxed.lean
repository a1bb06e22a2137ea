import JobQueue.Text.Hexadecimal

/-!
# JobQueue.Json.Relaxed

Documents as people write them, brought into strict form.

- Comments and any blanks may stand between the parts, and a comma after the last
  item.
- A string may stand in single quotes, may be continued on the next line, and has a
  few more escapes.
- A number may have a plus, no digit on one side of its point, or hexadecimal
  digits; `Infinity` is a number too large for all others, and `NaN` is null.
- A key may be a name without quotes.

What is strict stays as it is written: no number is computed, no escape is
resolved and no key is dropped. `strict?` brings a whole text into strict form.
-/

namespace JobQueue.Json.Relaxed

open Text

/-- A reader of the front of a text gives its strict form and the rest. -/
abbrev Taker := List Char → Option (List Char × List Char)

/-- Put characters before what is taken from the rest. -/
def emit (cs : List Char) (tail : Option (List Char × List Char)) :
    Option (List Char × List Char) :=
  tail.map fun (text, rest) => (cs ++ text, rest)

/-! ## Between the parts -/

/-- Whether a character ends a line beyond the newline and the return. -/
def isSeparator (c : Char) : Bool := c == '\u2028' || c == '\u2029'

/-- Whether a character ends a line. -/
def isLineEnd (c : Char) : Bool := c == '\n' || c == '\r' || isSeparator c

/-- Whether a character may stand between the parts of a document. -/
def isGap (c : Char) : Bool :=
  c == ' ' || ('\t' ≤ c && c ≤ '\r') || c == '\u00a0' || c == '\u1680' ||
    ('\u2000' ≤ c && c ≤ '\u200a') || isSeparator c || c == '\u202f' || c == '\u205f' ||
    c == '\u3000' || c == '\ufeff'

/-- The rest after a comment that ends with a star and a slash. -/
def afterBlock : List Char → Option (List Char)
  | '*' :: '/' :: cs => some cs
  | _ :: cs => afterBlock cs
  | [] => none

/-- The rest after a comment that ends with its line. -/
def afterLine (cs : List Char) : List Char := (cs.dropWhile fun c => !isLineEnd c).drop 1

/-- The text after its leading blanks and comments. `fuel` is at least the number
of characters. -/
def skipGapFrom : Nat → List Char → List Char
  | fuel + 1, c :: cs =>
      if isGap c then skipGapFrom fuel cs
      else if c = '/' then
        match cs with
        | '/' :: rest => skipGapFrom fuel (afterLine rest)
        | '*' :: rest =>
            match afterBlock rest with
            | some rest => skipGapFrom fuel rest
            | none => c :: cs
        | _ => c :: cs
      else c :: cs
  | _, cs => cs

/-- The text after its leading blanks and comments. -/
def skipGap (cs : List Char) : List Char := skipGapFrom cs.length cs

/-! ## Strings -/

/-- Whether a character is a hexadecimal digit. -/
def isHex (c : Char) : Bool := (hexValue? c).isSome

/-- Whether a backslash and one more character are strict. -/
def isShortEscape (c : Char) : Bool := ['"', '\\', '/', 'b', 'f', 'n', 'r', 't'].contains c

/-- A string after its opening quote, up to and with the quote that ends it. -/
def stringBody (quote : Char) : Taker
  | [] => none
  | c :: cs =>
      if c = quote then some (['"'], cs)
      else if c.toNat < 0x20 then none
      else if c ≠ '\\' then
        emit (if c = '"' then ['\\', '"'] else [c]) (stringBody quote cs)
      else
        match cs with
        | [] => none
        | e :: cs =>
            if isShortEscape e then emit ['\\', e] (stringBody quote cs)
            else if e = '\'' then emit ['\''] (stringBody quote cs)
            else if e = '0' then emit ['\\', 'u', '0', '0', '0', '0'] (stringBody quote cs)
            else if e = 'v' then emit ['\\', 'u', '0', '0', '0', '9'] (stringBody quote cs)
            else if e = 'x' then
              match cs with
              | a :: b :: cs =>
                  if isHex a && isHex b then
                    emit ['\\', 'u', '0', '0', a, b] (stringBody quote cs)
                  else none
              | _ => none
            else if e = 'u' then
              match cs with
              | a :: b :: c :: d :: cs =>
                  if isHex a && isHex b && isHex c && isHex d then
                    emit ['\\', 'u', a, b, c, d] (stringBody quote cs)
                  else none
              | _ => none
            else if e = '\r' then
              match cs with
              | '\n' :: cs => stringBody quote cs
              | cs => stringBody quote cs
            else if isLineEnd e then stringBody quote cs
            else none

/-- A string after its opening quote. -/
def string (quote : Char) : Taker := fun cs => emit ['"'] (stringBody quote cs)

/-! ## Words -/

/-- Whether a character is an ASCII letter or digit. -/
def isAlphanumeric (c : Char) : Bool := c.isAlphanum

/-- The number too large for all others. -/
def infinity : List Char := ['9', 'e', '9', '9', '9']

/-- The words that are values: how each is written, whether in this case only, and
its strict form. -/
def words : List (List Char × Bool × List Char) :=
  [ ("null".toList, true, "null".toList), ("true".toList, true, "true".toList),
    ("false".toList, true, "false".toList), ("inf".toList, false, infinity),
    ("infinity".toList, false, infinity), ("nan".toList, false, "null".toList),
    ("qnan".toList, false, "null".toList), ("snan".toList, false, "null".toList) ]

/-- Whether a text begins with a word, which ends there. -/
def beginsWith (word : List Char) (exact : Bool) (cs : List Char) : Bool :=
  let front := cs.take word.length
  (if exact then front else front.map Char.toLower) == word &&
    !((cs.drop word.length).head?.any isAlphanumeric)

/-- A word. -/
def word : Taker := fun cs =>
  (words.find? fun w => beginsWith w.1 w.2.1 cs).map fun w => (w.2.2, cs.drop w.1.length)

/-! ## Numbers -/

/-- The exponent of a number, if there is one. -/
def exponent : Taker
  | [] => some ([], [])
  | mark :: cs =>
      if mark = 'e' || mark = 'E' then
        let (sign, cs) : List Char × List Char :=
          match cs with
          | '+' :: cs => (['+'], cs)
          | '-' :: cs => (['-'], cs)
          | cs => ([], cs)
        let digits := cs.takeWhile isDigit
        if digits.isEmpty then none
        else some (mark :: sign ++ digits, cs.dropWhile isDigit)
      else some ([], mark :: cs)

/-- A decimal number. A side of its point that has no digits gets a zero. -/
def decimalNumber : Taker := fun cs =>
  let whole := cs.takeWhile isDigit
  match cs.dropWhile isDigit with
  | '.' :: cs =>
      let fraction := cs.takeWhile isDigit
      let orZero (digits : List Char) : List Char := if digits.isEmpty then ['0'] else digits
      if whole.isEmpty && fraction.isEmpty then none
      else emit (orZero whole ++ '.' :: orZero fraction) (exponent (cs.dropWhile isDigit))
  | cs => if whole.isEmpty then none else emit whole (exponent cs)

/-- A number without a sign in decimal digits; one past 64 bits is only too large. -/
def boundedWhole (n : Nat) : List Char := if n < 2 ^ 64 then decimal n else "9.0e999".toList

/-- A hexadecimal number in decimal digits, after its mark. -/
def hexNumber : Taker := fun cs =>
  (hexNumber? (cs.takeWhile isHex)).map fun n => (boundedWhole n, cs.dropWhile isHex)

/-- A number after its sign. -/
def unsigned : Taker
  | '0' :: c :: cs =>
      if (c = 'x' || c = 'X') && cs.head?.any isHex then hexNumber cs
      else if isDigit c then none
      else decimalNumber ('0' :: c :: cs)
  | cs => decimalNumber cs

/-- An infinity after its sign; what follows it is left to the next part. -/
def signedInfinity : Taker := fun cs =>
  if (cs.take 3).map Char.toLower = "inf".toList then
    let long := (cs.take 8).map Char.toLower = "infinity".toList
    some (infinity, cs.drop (if long then 8 else 3))
  else none

/-- A number. A plus is dropped. -/
def number : Taker
  | '+' :: cs => (signedInfinity cs).or (unsigned cs)
  | '-' :: cs => emit ['-'] ((signedInfinity cs).or (unsigned cs))
  | cs => unsigned cs

/-- A value that is neither an array nor an object. -/
def scalar : Taker
  | [] => none
  | c :: cs =>
      if c = '"' || c = '\'' then string c cs
      else if isDigit c || c = '+' || c = '-' || c = '.' then number (c :: cs)
      else word (c :: cs)

/-! ## Names -/

/-- Whether a character may begin a name. -/
def beginsName (c : Char) : Bool := c.isAlpha || c == '_' || c == '$' || 0x80 ≤ c.toNat

/-- Whether a backslash stands before a character by its number. -/
def isEscapeAhead : List Char → Bool
  | 'u' :: a :: b :: c :: d :: _ => isHex a && isHex b && isHex c && isHex d
  | _ => false

/-- The characters of a name, after the first. -/
def nameBody : List Char → List Char × List Char
  | [] => ([], [])
  | c :: cs =>
      if (beginsName c || isDigit c) && !isGap c || c = '\\' && isEscapeAhead cs then
        let (name, rest) := nameBody cs
        (c :: name, rest)
      else ([], c :: cs)

/-- A name that stands as a key; a word that is a value is none. -/
def name : Taker
  | [] => none
  | c :: cs =>
      if (word (c :: cs)).isSome then none
      else if beginsName c || c = '\\' && isEscapeAhead cs then
        let (name, rest) := nameBody cs
        some ('"' :: c :: name ++ ['"'], rest)
      else none

/-- The key of a member. -/
def key : Taker
  | [] => none
  | c :: cs => if c = '"' || c = '\'' then string c cs else name (c :: cs)

/-! ## Arrays and objects -/

/-- A key, its colon and a value. -/
def member (item : Taker) : Taker := fun cs => do
  let (k, cs) ← key cs
  match skipGap cs with
  | ':' :: cs => emit (k ++ [':']) (item cs)
  | _ => none

/-- Items with commas between them, and the bracket that ends them. A comma may
stand before that bracket, if an item stands before the comma. `fuel` is more than
the number of characters. -/
def items (item : Taker) (closing : Char) : Nat → Bool → Taker
  | 0, _, _ => none
  | fuel + 1, first, cs =>
      match skipGap cs with
      | [] => none
      | c :: cs =>
          if c = closing then some ([closing], cs)
          else do
            let (text, cs) ← item (c :: cs)
            let text := if first then text else ',' :: text
            match skipGap cs with
            | ',' :: cs => emit text (items item closing fuel false cs)
            | d :: cs => if d = closing then some (text ++ [closing], cs) else none
            | [] => none

/-- A value that may hold as many levels of arrays and objects as `depth` says. -/
def value (depth : Nat) : Taker := fun cs =>
  match skipGap cs with
  | [] => none
  | c :: cs =>
      if c = '[' then
        match depth with
        | 0 => none
        | d + 1 => emit ['['] (items (value d) ']' (cs.length + 1) true cs)
      else if c = '\x7b' then
        match depth with
        | 0 => none
        | d + 1 => emit ['\x7b'] (items (member (value d)) '\x7d' (cs.length + 1) true cs)
      else scalar (c :: cs)

/-! ## Texts -/

/-- The levels of arrays and objects that a relaxed document may have. -/
def depthLimit : Nat := 1000

/-- The strict form of a text that is one relaxed document. -/
def strict? (cs : List Char) : Option (List Char) := do
  let (text, rest) ← value depthLimit cs
  match skipGap rest with
  | [] => return text
  | _ => none

end JobQueue.Json.Relaxed
