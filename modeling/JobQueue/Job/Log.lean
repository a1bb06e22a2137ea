import JobQueue.Job.Event
import JobQueue.Json.Binary
import JobQueue.Json.Skip

/-!
# JobQueue.Job.Log

The events of a job as the text of a JSON array.

- `Log.text` writes events, `Log.parse` reads them.
- `Log.append` puts an event at the end of a text without reading the events in
  it: the text may be any relaxed document, and is only brought into strict form
  unless it is an array. `Log.appendBinary` does so for a document in bytes.
-/

namespace JobQueue.Log

open Json

/-- The document of events. -/
def document (events : List Event) : Json := .arr (events.map Event.entry)

/-- The text of events. -/
def text (events : List Event) : String := (document events).render

/-! ## Appending -/

/-- A document in strict form with one more item at its end, if it is an array. -/
def appendItem (document item : List Char) : List Char :=
  match document with
  | ['[', ']'] => '[' :: item ++ [']']
  | '[' :: _ => document.dropLast ++ ',' :: item ++ [']']
  | _ => document

/-- The text with an event at its end, if it is a document at all, even a relaxed one. -/
def append (log : String) (e : Event) : Option String :=
  (Relaxed.strict? log.toList).map fun document =>
    String.ofList (appendItem document e.entry.chars)

/-- The text of a document in bytes with an event at its end. -/
def appendBinary (log : List UInt8) (e : Event) : Option (List UInt8) :=
  Binary.append? log (Binary.encode e.entry)

/-! ## Reading

A mismatch is placed after the value that it is about. One about a whole event
is placed after the end of the event, if its end follows. -/

/-- Stop after a value that is not of the type that is expected. -/
def unfit {α : Type} (expected : String) (cs : List Char) : Except Fault α :=
  match cs with
  | [] => stopAt .eofInValue []
  | c :: rest =>
      if c = '[' then stopAt (.mismatch (.wrongType .sequence expected)) (c :: rest)
      else if c = '\x7b' then stopAt (.mismatch (.wrongType .map expected)) (c :: rest)
      else do
        let (v, rest) ← scalar (c :: rest)
        stopAt (.mismatch (.wrongType (.ofJson v) expected)) rest

/-- A text of a form of its own. -/
def parsedString {α : Type} (expected : String) (parse : String → Except Mismatch α) :
    Reader α := fun cs =>
  match skipSpace cs with
  | '"' :: cs => do
      let (s, rest) ← string cs
      match parse s with
      | .ok a => return (a, rest)
      | .error m => stopAt (.mismatch m) rest
  | cs => unfit expected cs

/-- A null. -/
def null : Reader Unit := fun cs =>
  match skipSpace cs with
  | 'n' :: cs => (word ['u', 'l', 'l'] cs).map fun rest => ((), rest)
  | cs => unfit "unit" cs

/-- The status of a name. -/
def statusOfName (s : String) : Except Mismatch Status :=
  match Status.ofName? s with
  | some t => .ok t
  | none => .error (.unknownVariant s (Status.all.map Status.name))

/-- A status by its name as the only key of an object. -/
def statusKey : Reader Status
  | [] => stopAt .eofInObject []
  | c :: cs =>
      if c = '"' then parsedString "variant identifier" statusOfName (c :: cs)
      else if c = '\x7d' then stopIn .expectedValue (c :: cs)
      else stopIn .keyMustBeString (c :: cs)

/-- A status: its name, or an object with a null under its name. -/
def status : Reader Status := fun cs =>
  match skipSpace cs with
  | [] => stopAt .eofInValue []
  | c :: cs =>
      if c = '"' then parsedString "variant identifier" statusOfName (c :: cs)
      else if c = '\x7b' then do
        let (s, cs) ← statusKey (skipSpace cs)
        let cs ← colon cs
        let (_, cs) ← null cs
        match skipSpace cs with
        | '\x7d' :: cs => return (s, cs)
        | [] => stopAt .eofInObject []
        | cs => stopAt .expectedValue cs
      else stopIn .expectedValue (c :: cs)

/-- The fields of an event that have been read. -/
structure Partial where
  timestamp : Option Instant
  status : Option Status
  reason : Option String

/-- A reader within an event also stops for what is wrong with the event. -/
inductive Stop where
  | fault (f : Fault)
  | event (m : Mismatch) (rest : List Char)

/-- Read a part of an event. -/
def part {α : Type} (r : Except Fault α) : Except Stop α := r.mapError .fault

/-- A field that is not there yet. -/
def single {α : Type} (name : String) (known : Option α) (item : Reader α) (cs : List Char) :
    Except Stop (α × List Char) :=
  match known with
  | some _ => .error (.event (.duplicateField name) cs)
  | none => part do item (← colon cs)

/-- The fields of an event that is written as an object, up to its brace. -/
def fields : Nat → Bool → Partial → List Char → Except Stop (Event × List Char)
  | 0, _, _, _ => part (stopAt .eofInObject [])
  | fuel + 1, first, p, cs => do
      let (more, cs) ← part (nextKey first cs)
      if more then
        let (key, cs) ← part (string cs)
        if key = "timestamp" then
          let (t, cs) ← single key p.timestamp
            (parsedString Instant.expected fun s => (Instant.parse s).mapError .malformed) cs
          fields fuel false { p with timestamp := some t } cs
        else if key = "status" then
          let (s, cs) ← single key p.status status cs
          fields fuel false { p with status := some s } cs
        else if key = "reason" then
          let (r, cs) ← single key p.reason (parsedString "a string" .ok) cs
          fields fuel false { p with reason := some r } cs
        else
          fields fuel false p (← part do skipValue (← colon cs))
      else
        match p.timestamp, p.status with
        | none, _ => .error (.event (.missingField "timestamp") cs)
        | some _, none => .error (.event (.missingField "status") cs)
        | some t, some s => .ok (⟨t, s, p.reason.getD ""⟩, cs)

/-- An item of an event that is written as a sequence. -/
def place {α : Type} (index : Nat) (item : Reader α) (cs : List Char) :
    Except Stop (α × List Char) := do
  let (more, cs) ← part (nextItem (index == 0) cs)
  if more then part (item cs)
  else .error (.event (.wrongLength index "struct Event with 3 elements") cs)

/-- The fields of an event that is written as a sequence, up to its bracket. -/
def places (cs : List Char) : Except Stop (Event × List Char) := do
  let (t, cs) ← place 0
    (parsedString Instant.expected fun s => (Instant.parse s).mapError .malformed) cs
  let (s, cs) ← place 1 status cs
  let (more, cs) ← part (nextItem false cs)
  if more then
    let (r, cs) ← part (parsedString "a string" .ok cs)
    return (⟨t, s, r⟩, cs)
  else
    return (⟨t, s, ""⟩, cs)

/-- The end of an event that is written as an object. -/
def endOfFields (cs : List Char) : Except Fault (List Char) :=
  match skipSpace cs with
  | [] => stopAt .eofInObject []
  | c :: cs =>
      if c = '\x7d' then .ok cs
      else if c = ',' then stopIn .trailingComma (c :: cs)
      else stopIn .trailingCharacters (c :: cs)

/-- The end of an event that is written as a sequence. -/
def endOfPlaces (cs : List Char) : Except Fault (List Char) :=
  match skipSpace cs with
  | [] => stopAt .eofInList []
  | c :: cs =>
      if c = ']' then .ok cs
      else if c = ',' then
        match skipSpace cs with
        | ']' :: cs => stopIn .trailingComma (']' :: cs)
        | cs => stopIn .trailingCharacters cs
      else stopIn .trailingCharacters (c :: cs)

/-- Close an event. What was wrong with it is told after its end, or else where
the blanks after it end. -/
def close (ending : List Char → Except Fault (List Char))
    (r : Except Stop (Event × List Char)) : Except Fault (Event × List Char) :=
  match r with
  | .ok (e, cs) => do return (e, ← ending cs)
  | .error (.fault f) => .error f
  | .error (.event m cs) =>
      match ending cs with
      | .ok rest => stopAt (.mismatch m) rest
      | .error _ => stopAt (.mismatch m) (skipSpace cs)

/-- An event. -/
def event : Reader Event := fun cs =>
  match skipSpace cs with
  | [] => stopAt .eofInValue []
  | c :: cs =>
      if c = '\x7b' then
        close endOfFields (fields (cs.length + 1) true ⟨none, none, none⟩ cs)
      else if c = '[' then close endOfPlaces (places cs)
      else unfit "struct Event" (c :: cs)

/-- Events in a row. -/
def events : Reader (List Event) := fun cs =>
  match skipSpace cs with
  | '[' :: cs => list event (cs.length + 1) true cs
  | cs => unfit "a sequence" cs

/-- Read the text of events. -/
def parse (s : String) : Except Fault (List Event) := whole events s.toList

end JobQueue.Log
