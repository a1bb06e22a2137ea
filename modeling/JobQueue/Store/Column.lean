import JobQueue.Text.Bytes

/-!
# JobQueue.Store.Column

What stands in a column of texts: nothing, a text, or bytes that were not written
as a text.

Columns are compared as they were written. A text is read only up to its first
NUL, so two different texts may read alike.
-/

namespace JobQueue

/-- What stands in a column. -/
inductive Column where
  | null
  | text (s : String)
  /-- Bytes that were not written as a text. -/
  | blob (bytes : List UInt8)
  deriving DecidableEq

namespace Column

/-- A text or nothing. -/
def ofOption : Option String → Column
  | none => null
  | some s => text s

/-- The text that bytes encode, or else the bytes. -/
def ofBytes (bs : List UInt8) : Column :=
  match Text.ofBytes? bs with
  | some s => text s
  | none => blob bs

/-- Whether there is nothing. -/
def isNull : Column → Bool
  | null => true
  | _ => false

/-- Whether there is just the given text. -/
def is (c : Column) (s : String) : Bool := c == text s

/-! ## Reading -/

/-- The part of a text that is read. -/
def readable (s : String) : String := String.ofList (s.toList.takeWhile (· ≠ '\x00'))

/-- The text that is read, if there is one. -/
def read? : Column → Option String
  | text s => some (readable s)
  | _ => none

theorem takeWhile_eq_self {α : Type} {p : α → Bool} {l : List α} (h : ∀ a ∈ l, p a) :
    l.takeWhile p = l := by
  induction l with
  | nil => rfl
  | cons a l ih =>
      rw [List.takeWhile_cons_of_pos (h a List.mem_cons_self),
        ih fun b hb => h b (List.mem_cons_of_mem _ hb)]

theorem readable_of_not_mem {s : String} (h : '\x00' ∉ s.toList) : readable s = s := by
  have hs : s.toList.takeWhile (· ≠ '\x00') = s.toList :=
    takeWhile_eq_self fun c hc => decide_eq_true fun e : c = '\x00' => h (e ▸ hc)
  rw [readable, hs, String.ofList_toList]

theorem read?_text {s : String} (h : '\x00' ∉ s.toList) : (text s).read? = some s := by
  rw [read?, readable_of_not_mem h]

/-- The document that is read as a text, if there is one. Bytes count as the text that
they encode. -/
def document? : Column → Option String
  | null => none
  | text s => some (readable s)
  | blob bytes => (Text.ofBytes? bytes).map readable

/-! ## Order -/

/-- Whether a column comes before another one: nothing before texts, texts before
bytes. -/
def lt : Column → Column → Bool
  | null, null => false
  | null, _ => true
  | text s, text t => s < t
  | text _, blob _ => true
  | blob bs, blob cs => decide (bs < cs)
  | _, _ => false

/-- Whether there is something that comes before a text. -/
def before (c : Column) (s : String) : Bool := !c.isNull && c.lt (text s)

/-- Whether there is something that comes after a text. -/
def after (c : Column) (s : String) : Bool := (text s).lt c

/-- Whether there is something that does not come after a text. -/
def upTo (c : Column) (s : String) : Bool := !c.isNull && !c.after s

@[simp] theorem before_text (s t : String) : (text s).before t = decide (s < t) := rfl

@[simp] theorem after_text (s t : String) : (text s).after t = decide (t < s) := rfl

@[simp] theorem upTo_text (s t : String) : (text s).upTo t = !decide (t < s) := rfl

@[simp] theorem before_null (t : String) : null.before t = false := rfl

end Column

end JobQueue
