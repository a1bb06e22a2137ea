import JobQueue.Text.Bytes
import JobQueue.Text.Hexadecimal
import JobQueue.Text.Pieces

/-!
# JobQueue.File.Address

What the text after `file:` names: a file, and how it is to be opened.

    file://localhost/name?option=value&option=value#remark

- `Address.read` takes the text apart and decodes what is escaped.
- The options that matter are `mode`, `cache`, `vfs`, `immutable`, `nolock` and
  `modeof`; others are passed over. Of two equal ones the last `mode` and the last
  `vfs` count, and otherwise the first.
-/

namespace JobQueue.File

open Text

/-- How a file is to be opened. -/
inductive Mode where
  | readOnly
  /-- Only if it exists. -/
  | existing
  /-- Created if it does not exist. -/
  | create
  /-- Nothing but memory, under the name of a file. -/
  | memory
  deriving DecidableEq

/-- How files are reached. -/
inductive System where
  /-- With locks, and with a log that programs share. -/
  | shared
  /-- Without such a log. -/
  | unlogged
  /-- By one program at a time. -/
  | exclusive
  /-- Not at all: names stand for memory. -/
  | memory
  deriving DecidableEq

/-- A file and how it is to be opened. -/
structure Address where
  name : String
  mode : Mode := .create
  system : System := .shared
  /-- Nobody changes the file. -/
  immutable : Bool := false
  /-- Nobody else has the file, so that it needs no locks. -/
  unlocked : Bool := false
  /-- The file whose permissions a new file gets. -/
  model? : Option String := none
  deriving DecidableEq

/-- Why a text is no address. -/
inductive AddressFault where
  /-- Its host or the value of an option is unknown. -/
  | unknown
  /-- A mode allows what the mode before it does not. -/
  | forbidden
  deriving DecidableEq

/-! ## Escapes -/

/-- The bytes of a text without its escapes; an escaped NUL ends the text. -/
def unescape : List Char → List UInt8
  | '%' :: a :: b :: rest =>
      match hexValue? a, hexValue? b with
      | some x, some y =>
          if 16 * x + y = 0 then [] else .ofNat (16 * x + y) :: unescape rest
      | _, _ => bytes "%" ++ unescape (a :: b :: rest)
  | c :: rest => bytes (String.singleton c) ++ unescape rest
  | [] => []

/-- A text without its escapes. Where its bytes encode no text, each of them stands for
a character. -/
def decoded (cs : List Char) : String :=
  (ofBytes? (unescape cs)).getD
    (String.ofList ((unescape cs).map fun b => Char.ofNat b.toNat))

/-- The characters before the first mark, and those after it. -/
def cutAt (mark : Char) (cs : List Char) : List Char × List Char :=
  (cs.takeWhile (· ≠ mark), (cs.dropWhile (· ≠ mark)).drop 1)

/-! ## Options -/

/-- The options of a text, in order. One without a name is passed over. -/
def options (cs : List Char) : List (String × String) :=
  (pieces '&' cs).filterMap fun item =>
    let (key, v) := cutAt '=' item
    if decoded key = "" then none else some (decoded key, decoded v)

/-- The mode of a name. -/
def modeNamed? : String → Option Mode
  | "ro" => some .readOnly
  | "rw" => some .existing
  | "rwc" => some .create
  | "memory" => some .memory
  | _ => none

/-- How much a mode allows. -/
def Mode.rank : Mode → Nat
  | .memory => 0
  | .readOnly => 1
  | .existing => 2
  | .create => 3

/-- Whether a mode may replace another one: it allows no more, or the other one is
memory. -/
def Mode.mayReplace (new old : Mode) : Bool := old == .memory || new.rank ≤ old.rank

/-- The ways to share what is kept of a file. -/
def cacheNames : List String := ["shared", "private"]

/-- The mode after an option. -/
def modeAfter (m : Mode) : String × String → Except AddressFault Mode
  | ("mode", v) =>
      match modeNamed? v with
      | none => .error .unknown
      | some n => if n.mayReplace m then .ok n else .error .forbidden
  | ("cache", v) => if cacheNames.contains v then .ok m else .error .unknown
  | _ => .ok m

/-- The system of a name. -/
def systemNamed? : String → Option System
  | "unix" => some .shared
  | "unix-none" => some .unlogged
  | "unix-dotfile" => some .unlogged
  | "unix-excl" => some .exclusive
  | "memdb" => some .memory
  | _ => none

/-- The system of options. -/
def systemOf (opts : List (String × String)) : Except AddressFault System :=
  match opts.reverse.lookup "vfs" with
  | none => .ok .shared
  | some v =>
      match systemNamed? v with
      | some system => .ok system
      | none => .error .unknown

/-- The number that a text begins with, in decimal digits or in hexadecimal ones after
a mark; zero if it needs more than 31 bits. -/
def leadingNumber (cs : List Char) : Nat :=
  let isHex (c : Char) : Bool := (hexValue? c).isSome
  let n :=
    match cs with
    | '0' :: x :: c :: cs =>
        if (x = 'x' || x = 'X') && isHex c then
          (hexNumber? ((c :: cs).takeWhile isHex)).getD 0
        else value (('0' :: x :: c :: cs).takeWhile isDigit)
    | cs => value (cs.takeWhile isDigit)
  if n < 2 ^ 31 then n else 0

/-- The words for truth. -/
def affirmations : List String := ["on", "yes", "true"]

/-- Whether a text stands for truth: it is a word for it in any case, or begins with a
number that is no multiple of 256. -/
def isAffirmed (s : String) : Bool :=
  if s.toList.head?.any isDigit then leadingNumber s.toList % 256 != 0
  else affirmations.contains (String.ofList (s.toList.map Char.toLower))

/-- Whether an option is set. -/
def isSet (opts : List (String × String)) (key : String) : Bool :=
  (opts.lookup key).any isAffirmed

/-! ## Addresses -/

/-- What an address begins with. -/
def Address.scheme : String := "file:"

/-- The text after a host, if there is one. The only host is this one. -/
def afterHost : List Char → Except AddressFault (List Char)
  | '/' :: '/' :: rest =>
      let host := String.ofList (rest.takeWhile (· ≠ '/'))
      if host = "" ∨ host = "localhost" then .ok (rest.dropWhile (· ≠ '/'))
      else .error .unknown
  | cs => .ok cs

/-- The address that the text after the scheme is. -/
def Address.read (cs : List Char) : Except AddressFault Address := do
  let (name, query) := cutAt '?' (cutAt '#' (← afterHost cs)).1
  let opts := options query
  return {
    name := decoded name
    mode := ← opts.foldlM modeAfter .create
    system := ← systemOf opts
    immutable := isSet opts "immutable"
    unlocked := isSet opts "nolock"
    model? := opts.lookup "modeof" }

/-- A text without escapes is decoded to itself. -/
theorem unescape_of_not_mem {cs : List Char} (h : '%' ∉ cs) :
    unescape cs = cs.flatMap fun c => bytes (String.singleton c) := by
  induction cs with
  | nil => rfl
  | cons c cs ih =>
      have hc : c ≠ '%' := fun e => h (e ▸ List.mem_cons_self)
      rw [unescape, ih fun hm => h (List.mem_cons_of_mem _ hm), List.flatMap_cons]
      intro a b rest e
      exact (hc e).elim

end JobQueue.File
