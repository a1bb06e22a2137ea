import JobQueue.Proofs.Rendering
import JobQueue.Store.Row

/-!
# JobQueue.Proofs.Journal

The log of a job grows by one event at a time.

Appending brings the text into strict form first. The text of events is in strict
form already: its strings, members and items are taken as they stand
(`string_quotedChars`, `member_memberChars`, `items_separated`), so that nothing but
the new event is added (`append_text`).
-/

namespace JobQueue

namespace Json.Relaxed

open Text

/-! ## Strings -/

theorem emit_some (cs text rest : List Char) :
    emit cs (some (text, rest)) = some (cs ++ text, rest) := rfl

theorem isHex_digitChar {n : Nat} (h : n < 16) : isHex (Nat.digitChar n) = true := by
  have hall : ∀ k : Fin 16, isHex (Nat.digitChar k.val) = true := by decide
  exact hall ⟨n, h⟩

theorem stringBody_quote (rest : List Char) : stringBody '"' ('"' :: rest) = some (['"'], rest) := by
  rw [stringBody.eq_def]
  simp

/-- An escaped character is strict already. -/
theorem stringBody_escapeChar (c : Char) (tail : List Char) :
    stringBody '"' (escapeChar c ++ tail) = emit (escapeChar c) (stringBody '"' tail) := by
  rcases escapeChar_cases c with ⟨hc, hle, hq, hb⟩ | ⟨e, he, hc, -⟩ | ⟨hlt, hc⟩ <;>
    rw [hc, stringBody.eq_def]
  · have hlt : ¬ c.toNat < 0x20 := by omega
    simp [hq, hb, hlt]
  · have hall : shortEscapes.all isShortEscape = true := by decide
    have hshort := List.all_eq_true.mp hall e he
    simp [hshort]
  · have h₁ := isHex_digitChar (n := c.toNat / 16) (by omega)
    have h₂ := isHex_digitChar (n := c.toNat % 16) (by omega)
    have h₀ : isHex '0' = true := by decide
    simp [isShortEscape, h₀, h₁, h₂]

theorem stringBody_flatMap (cs rest : List Char) :
    stringBody '"' (cs.flatMap escapeChar ++ '"' :: rest) =
      some (cs.flatMap escapeChar ++ ['"'], rest) := by
  induction cs with
  | nil => exact stringBody_quote rest
  | cons c cs ih =>
      rw [List.flatMap_cons, List.append_assoc, stringBody_escapeChar, ih, emit_some,
        List.append_assoc]

/-- A string is taken as it stands. -/
theorem string_quotedChars (s : String) (rest : List Char) :
    string '"' (s.toList.flatMap escapeChar ++ '"' :: rest) = some (quotedChars s, rest) := by
  rw [string, stringBody_flatMap, emit_some, quotedChars]
  rfl

/-! ## Values, members and items -/

/-- A gap ends before a character that is neither a blank nor begins a comment. -/
theorem skipGap_cons {c : Char} (cs : List Char) (hgap : isGap c = false) (hslash : c ≠ '/') :
    skipGap (c :: cs) = c :: cs := by
  unfold skipGap
  rw [List.length_cons, skipGapFrom.eq_def]
  simp [hgap, hslash]

/-- A string as a value. -/
theorem value_quotedChars (depth : Nat) (s : String) (rest : List Char) :
    value depth (quotedChars s ++ rest) = some (quotedChars s, rest) := by
  have hstring := string_quotedChars s rest
  rw [quotedChars, List.append_assoc, List.cons_append, value]
  rw [skipGap_cons _ (by decide) (by decide)]
  simp [scalar, hstring, quotedChars]

/-- A string as a key, with its colon and a string as its value. -/
theorem member_memberChars (depth : Nat) (k v : String) (rest : List Char) :
    member (value depth) (memberChars (k, .str v) ++ rest) =
      some (memberChars (k, .str v), rest) := by
  have hkey : key (quotedChars k ++ (':' :: quotedChars v ++ rest)) =
      some (quotedChars k, ':' :: quotedChars v ++ rest) := by
    rw [quotedChars, List.append_assoc, List.cons_append, key]
    simp [string_quotedChars, quotedChars]
  rw [memberChars, chars_str, List.append_assoc, member, hkey]
  simp only [Option.bind_eq_bind, Option.bind_some, List.cons_append]
  rw [skipGap_cons _ (by decide) (by decide)]
  simp only [value_quotedChars, emit_some]
  simp

/-- A part that an item reader takes as it stands, and that neither a gap nor the end
of the items can be mistaken for. -/
structure IsTaken (item : Taker) (closing : Char) (p : List Char) : Prop where
  head : ∃ c t, p = c :: t ∧ isGap c = false ∧ c ≠ '/' ∧ c ≠ closing
  item_append : ∀ rest, item (p ++ rest) = some (p, rest)

/-- Items with commas between them are taken as they stand. -/
theorem items_separated {item : Taker} {closing : Char}
    (hclosing : isGap closing = false ∧ closing ≠ '/' ∧ closing ≠ ',') (rest : List Char)
    (ps : List (List Char)) (p : List Char) (hps : ∀ q ∈ p :: ps, IsTaken item closing q)
    (first : Bool) (fuel : Nat) (hfuel : ps.length < fuel) :
    items item closing fuel first (p ++ separated closing ps ++ rest) =
      some ((if first then p else ',' :: p) ++ separated closing ps, rest) := by
  induction ps generalizing p first fuel with
  | nil =>
      obtain ⟨fuel, rfl⟩ : ∃ n, fuel = n + 1 := ⟨fuel - 1, by simp at hfuel; omega⟩
      obtain ⟨⟨c, t, rfl, hgap, hslash, hne⟩, hitem⟩ := hps p List.mem_cons_self
      have htaken := hitem (closing :: rest)
      rw [List.cons_append] at htaken
      simp only [separated_nil, List.append_assoc, List.cons_append, List.nil_append, items,
        skipGap_cons _ hgap hslash, hne, if_false, htaken, Option.bind_eq_bind, Option.bind_some,
        skipGap_cons _ hclosing.1 hclosing.2.1]
      simp [hclosing.2.2]
  | cons q qs ih =>
      obtain ⟨fuel, rfl⟩ : ∃ n, fuel = n + 1 := ⟨fuel - 1, by simp at hfuel; omega⟩
      obtain ⟨⟨c, t, rfl, hgap, hslash, hne⟩, hitem⟩ := hps p List.mem_cons_self
      have htaken := hitem (',' :: (q ++ separated closing qs ++ rest))
      have hrest := ih q (fun x hx => hps x (List.mem_cons_of_mem _ hx)) false fuel
        (by simp at hfuel; omega)
      rw [List.cons_append] at htaken
      simp only [separated_cons, List.append_assoc, List.cons_append] at htaken hrest ⊢
      simp only [items, skipGap_cons _ hgap hslash, hne, if_false, htaken, Option.bind_eq_bind,
        Option.bind_some, skipGap_cons _ (show isGap ',' = false by decide) (by decide), hrest,
        emit_some]
      cases first <;> simp

/-- An array of parts that are taken as they stand. -/
theorem value_array {depth : Nat} {p : List Char} {ps : List (List Char)}
    (hps : ∀ q ∈ p :: ps, IsTaken (value depth) ']' q) (rest : List Char) :
    value (depth + 1) ('[' :: p ++ separated ']' ps ++ rest) =
      some ('[' :: p ++ separated ']' ps, rest) := by
  have hlen := length_lt_separated ']' ps
  have hitems := items_separated (by decide) rest ps p hps true
    ((p ++ separated ']' ps ++ rest).length + 1) (by simp only [List.length_append]; omega)
  simp only [List.cons_append, value]
  rw [skipGap_cons _ (by decide) (by decide)]
  simp only [if_true, hitems, emit_some]
  simp

/-- An object of members that are taken as they stand. -/
theorem value_object {depth : Nat} {p : List Char} {ps : List (List Char)}
    (hps : ∀ q ∈ p :: ps, IsTaken (member (value depth)) '\x7d' q) (rest : List Char) :
    value (depth + 1) ('\x7b' :: p ++ separated '\x7d' ps ++ rest) =
      some ('\x7b' :: p ++ separated '\x7d' ps, rest) := by
  have hlen := length_lt_separated '\x7d' ps
  have hitems := items_separated (by decide) rest ps p hps true
    ((p ++ separated '\x7d' ps ++ rest).length + 1) (by simp only [List.length_append]; omega)
  simp only [List.cons_append, value]
  rw [skipGap_cons _ (by decide) (by decide)]
  simp only [Char.reduceEq, if_false, if_true, hitems, emit_some]
  simp

theorem isTaken_memberChars (depth : Nat) (k v : String) :
    IsTaken (member (value depth)) '\x7d' (memberChars (k, .str v)) where
  head := ⟨'"', _, rfl, by decide⟩
  item_append := member_memberChars depth k v

end Json.Relaxed

/-! ## Events -/

namespace Log

open Json Json.Relaxed

/-- An event is taken as it stands. -/
theorem isTaken_entry (depth : Nat) (e : Event) :
    IsTaken (value (depth + 1)) ']' e.entry.chars where
  head := ⟨'\x7b', _, chars_obj _ _, by decide⟩
  item_append rest := by
    rw [Event.entry, chars_obj]
    refine value_object (fun q hq => ?_) rest
    simp only [List.map_cons, List.map_nil, List.mem_cons, List.not_mem_nil, or_false] at hq
    rcases hq with rfl | rfl | rfl <;> exact isTaken_memberChars depth _ _

/-- The text of events: each in brackets, with commas between them. -/
theorem chars_document (e : Event) (es : List Event) :
    (document (e :: es)).chars =
      '[' :: e.entry.chars ++ separated ']' (es.map fun x => x.entry.chars) := by
  rw [document, List.map_cons, chars_arr, List.map_map]
  rfl

/-- The text of events is in strict form. -/
theorem strict?_chars (es : List Event) :
    strict? (document es).chars = some (document es).chars := by
  cases es with
  | nil => decide
  | cons e es =>
      have htaken : ∀ q ∈ e.entry.chars :: es.map fun x => x.entry.chars,
          IsTaken (value 999) ']' q := by
        rw [← List.map_cons (f := fun x : Event => x.entry.chars)]
        intro q hq
        obtain ⟨x, -, rfl⟩ := List.mem_map.mp hq
        exact isTaken_entry 998 x
      have hvalue := value_array htaken []
      rw [List.append_nil] at hvalue
      rw [chars_document, strict?, Relaxed.depthLimit, hvalue]
      rfl

/-- An item takes the place of the bracket that ends an array of at least one item. -/
theorem appendItem_cons {c : Char} (cs item : List Char) (h : c ≠ ']') :
    appendItem ('[' :: c :: cs) item = ('[' :: c :: cs).dropLast ++ ',' :: item ++ [']'] := by
  unfold appendItem
  split
  · next heq =>
      injection heq with _ heq
      injection heq with hc _
      exact absurd hc h
  · rfl
  · next hne => exact absurd rfl (hne _)

/-- One more event at the end of the text of events. -/
theorem appendItem_chars (es : List Event) (e : Event) :
    appendItem (document es).chars e.entry.chars = (document (es ++ [e])).chars := by
  cases es with
  | nil =>
      rw [List.nil_append, chars_document, List.map_nil, separated_nil]
      rfl
  | cons d es =>
      have hsep : separated ']' (es.map fun x => x.entry.chars) ≠ [] := by cases es <;> simp
      obtain ⟨xs, hx⟩ : ∃ xs, d.entry.chars = '\x7b' :: xs := ⟨_, chars_obj _ _⟩
      rw [List.cons_append, chars_document, chars_document, List.map_append, List.map_singleton,
        separated_concat, hx]
      rw [List.cons_append, List.cons_append, appendItem_cons _ _ (by decide),
        ← List.cons_append, ← List.cons_append, List.dropLast_append_of_ne_nil hsep]
      simp

/-- Appending to the text of events adds an event at its end, and always goes well. -/
theorem append_text (es : List Event) (e : Event) :
    append (text es) e = some (text (es ++ [e])) := by
  rw [append, text, render, String.toList_ofList, strict?_chars, Option.map_some,
    appendItem_chars, text, render]

/-- The text of events is read as a whole. -/
theorem readable_text (es : List Event) : Column.readable (text es) = text es :=
  Column.readable_of_not_mem (nul_not_mem_render _)

end Log

/-! ## Rows

Where the events of a row are the text of events, every change goes well. -/

namespace Row

variable {r : Row} {es : List Event}

/-- The events of a row that holds the text of events, with one more at their end. -/
theorem appended_text (h : r.events = .text (Log.text es)) (e : Event) :
    r.appended e = some (.text (Log.text (es ++ [e]))) := by
  rw [appended, h, appended.appendedText, h]
  simp [Column.document?, Log.readable_text, Log.append_text]

theorem claimed_text (h : r.events = .text (Log.text es)) (now : Instant) :
    r.claimed now = some
      { r with
        status := ofStatus .dequeued
        started := ofInstant now
        ended := .null
        attempts := r.attempts + 1
        events := .text (Log.text (es ++ [⟨now, .dequeued, ""⟩])) } := by
  rw [claimed, appended_text h]
  rfl

theorem finishedWith_text (h : r.events = .text (Log.text es)) (o : Outcome) (now : Instant) :
    r.finishedWith o now = some
      { r.withOutcome o now with events := .text (Log.text (es ++ [o.event now])) } := by
  rw [finishedWith, appended_text h]
  rfl

theorem requeued_text (h : r.events = .text (Log.text es)) (now : Instant) :
    r.requeued now = some
      { r with
        status := ofStatus .enqueued
        available := ofInstant now
        events := .text (Log.text (es ++ [⟨now, .enqueued, lifetimeExceeded⟩])) } := by
  rw [requeued, appended_text h]
  rfl

end Row

end JobQueue
