/-!
# JobQueue.Text.Bytes

Positions in a text are counted in UTF-8 bytes, and texts are ordered by their
bytes, which is the order of their code points. `bytes` gives the bytes of a text,
and `ofBytes?` the text of bytes that encode one.
-/

namespace JobQueue.Text

/-- The length of a run of characters in bytes. -/
def byteCount : List Char → Nat
  | [] => 0
  | c :: cs => c.utf8Size + byteCount cs

@[simp] theorem byteCount_cons (c : Char) (cs : List Char) :
    byteCount (c :: cs) = c.utf8Size + byteCount cs := rfl

/-- Whether a text comes at or before another. -/
def le (a b : String) : Bool := !decide (b < a)

/-! ## Encoding -/

/-- The bytes of a text. -/
def bytes (s : String) : List UInt8 := s.toUTF8.data.toList

/-- The text of bytes, if they encode one. -/
def ofBytes? (bs : List UInt8) : Option String := String.fromUTF8? ⟨bs.toArray⟩

/-- The bytes of a text encode it. -/
@[simp] theorem ofBytes?_bytes (s : String) : ofBytes? (bytes s) = some s := by
  unfold ofBytes? bytes String.fromUTF8?
  rw [Array.toArray_toList]
  exact dif_pos s.isValidUTF8

/-- Bytes that encode a text are the bytes of that text. -/
theorem bytes_of_ofBytes? {bs : List UInt8} {s : String} (h : ofBytes? bs = some s) :
    bytes s = bs := by
  unfold ofBytes? String.fromUTF8? at h
  split at h
  · cases h
    rfl
  · cases h

end JobQueue.Text
