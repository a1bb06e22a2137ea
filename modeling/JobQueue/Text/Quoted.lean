import JobQueue.Text.Hexadecimal
import JobQueue.Text.Printable

/-!
# JobQueue.Text.Quoted

A text in double quotes, for messages: quotes and backslashes get a backslash,
the common controls their letter, and every other character that is not
printable its code point in braces.
-/

namespace JobQueue.Text

/-- The escape of one character inside a quoted text. -/
def escape (c : Char) : List Char :=
  match c with
  | '\x00' => ['\\', '0']
  | '\t' => ['\\', 't']
  | '\r' => ['\\', 'r']
  | '\n' => ['\\', 'n']
  | '\\' => ['\\', '\\']
  | '"' => ['\\', '"']
  | c => if isPrintable c then [c] else "\\u\x7b".toList ++ hexadecimal c.toNat ++ "\x7d".toList

/-- A text in quotes. -/
def quoted (s : String) : String :=
  String.ofList ('"' :: s.toList.flatMap escape ++ ['"'])

end JobQueue.Text
