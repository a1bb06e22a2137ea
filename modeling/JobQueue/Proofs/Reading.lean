import JobQueue.Proofs.Instants
import JobQueue.Proofs.Rendering
import JobQueue.Job.Log
import Mathlib.Data.List.Forall2

/-!
# JobQueue.Proofs.Reading

The log of a job is read back from its text, each event at its settled instant
(`parse_text`).

- What a string holds is read from its escapes (`string_quotedChars`).
- Items that are read from their texts (`IsReadBy`) are read from an array of them
  (`list_separated`), whatever the items are.
- An event is such an item: its time, as far as a text can say it, its status and its reason
  are read back.
-/

namespace JobQueue

namespace Json

open Text

/-! ## Strings -/

theorem push_ok (c : Char) (cs rest : List Char) :
    push c (.ok (cs, rest)) = .ok (c :: cs, rest) := rfl

theorem hexValue?_digitChar {n : Nat} (h : n < 16) : hexValue? (Nat.digitChar n) = some n := by
  have hdigit := hexValue?_hexDigit n
  rwa [hexDigit, Nat.mod_eq_of_lt h] at hdigit

/-- An escaped character is read as that character. -/
theorem stringBody_escapeChar (c : Char) (tail : List Char) :
    stringBody (escapeChar c ++ tail) = push c (stringBody tail) := by
  rcases escapeChar_cases c with ⟨hc, hle, hq, hb⟩ | ⟨e, he, hc, hshort⟩ | ⟨hlt, hc⟩ <;>
    rw [hc, stringBody.eq_def]
  · have hlt : ¬ c.toNat < 0x20 := by omega
    simp [hq, hb, hlt]
  · have hne : e ≠ 'u' := by
      rintro rfl
      exact absurd he (by decide)
    simp [hne, hshort]
  · have h₀ : hexValue? '0' = some 0 := by decide
    have h₁ := hexValue?_digitChar (n := c.toNat / 16) (by omega)
    have h₂ := hexValue?_digitChar (n := c.toNat % 16) (by omega)
    have hunit : hexUnit? '0' '0' (Nat.digitChar (c.toNat / 16)) (Nat.digitChar (c.toNat % 16)) =
        some c.toNat := by
      rw [hexUnit?, h₀, h₁, h₂]
      simp
      omega
    have hlow : ¬ (0xDC00 ≤ c.toNat ∧ c.toNat ≤ 0xDFFF) := by omega
    have hchar : c.toNat < 0xD800 ∨ 0xDBFF < c.toNat := by omega
    simp only [List.cons_append, List.nil_append, Char.reduceEq, if_false, ne_eq,
      not_true_eq_false, hunit, hlow, hchar, if_true, Char.ofNat_toNat]

theorem stringBody_flatMap (cs rest : List Char) :
    stringBody (cs.flatMap escapeChar ++ '"' :: rest) = .ok (cs, rest) := by
  induction cs with
  | nil =>
      rw [stringBody.eq_def]
      simp
  | cons c cs ih =>
      rw [List.flatMap_cons, List.append_assoc, stringBody_escapeChar, ih, push_ok]

/-- A string is read back after its opening quote. -/
theorem string_escaped (s : String) (rest : List Char) :
    string (s.toList.flatMap escapeChar ++ '"' :: rest) = .ok (s, rest) := by
  rw [string, stringBody_flatMap]
  simp [Except.map]

/-! ## Arrays -/

theorem skipSpace_cons {c : Char} (cs : List Char) (h : isSpace c = false) :
    skipSpace (c :: cs) = c :: cs := by
  rw [skipSpace, List.dropWhile_cons, if_neg (by simp [h])]

/-- A text that an item can begin with. -/
def IsItemHead (p : List Char) : Prop := ∃ c t, p = c :: t ∧ isSpace c = false ∧ c ≠ ']'

theorem nextItem_first {p : List Char} (h : IsItemHead p) (rest : List Char) :
    nextItem true (p ++ rest) = .ok (true, p ++ rest) := by
  obtain ⟨c, t, rfl, hspace, hne⟩ := h
  rw [List.cons_append, nextItem, skipSpace_cons _ hspace]
  simp [hne]

theorem nextItem_comma {p : List Char} (h : IsItemHead p) (rest : List Char) :
    nextItem false (',' :: (p ++ rest)) = .ok (true, p ++ rest) := by
  obtain ⟨c, t, rfl, hspace, hne⟩ := h
  rw [List.cons_append, nextItem, skipSpace_cons _ (by decide)]
  simp [skipSpace_cons _ hspace, hne]

theorem nextItem_end (first : Bool) (rest : List Char) :
    nextItem first (']' :: rest) = .ok (false, ']' :: rest) := by
  rw [nextItem, skipSpace_cons _ (by decide)]
  simp

/-- What follows a value in a document: its end, a comma or a closing bracket. -/
def EndsValue (rest : List Char) : Prop := ∀ c ∈ rest.head?, c = ',' ∨ c = ']' ∨ c = '\x7d'

theorem endsValue_nil : EndsValue [] := by simp [EndsValue]

theorem endsValue_separated {closing : Char} (h : closing = ']' ∨ closing = '\x7d')
    (ps : List (List Char)) (rest : List Char) : EndsValue (separated closing ps ++ rest) := by
  cases ps with
  | nil => simpa [EndsValue] using .inr h
  | cons p ps => simp [EndsValue]

/-- A text that is read as an item, up to what ends a value. -/
structure IsReadBy {α : Type} (item : Reader α) (p : List Char) (a : α) : Prop where
  head : IsItemHead p
  read : ∀ rest, EndsValue rest → item (p ++ rest) = .ok (a, rest)

section

variable {α : Type} {item : Reader α} {p : List Char} {ps : List (List Char)} {a : α} {as : List α}

/-- Items after the first are read from their texts. -/
theorem list_separated (h : List.Forall₂ (IsReadBy item) ps as) (rest : List Char)
    (fuel : Nat) (hfuel : ps.length < fuel) :
    list item fuel false (separated ']' ps ++ rest) = .ok (as, rest) := by
  induction h generalizing fuel with
  | nil =>
      obtain ⟨fuel, rfl⟩ := Nat.exists_eq_succ_of_ne_zero (Nat.ne_of_gt hfuel)
      rw [separated_nil, List.cons_append, List.nil_append, Nat.succ_eq_add_one, list,
        nextItem_end, ok_bind]
      rfl
  | @cons p a ps as hp hps ih =>
      obtain ⟨fuel, rfl⟩ : ∃ n, fuel = n + 1 := ⟨fuel - 1, by simp at hfuel; omega⟩
      have hrest := ih fuel (by simp at hfuel; omega)
      have hitem := hp.read _ (endsValue_separated (.inl rfl) ps rest)
      rw [separated_cons, List.append_assoc, List.cons_append, list, nextItem_comma hp.head,
        ok_bind]
      simp only [if_true, hitem, ok_bind, hrest]
      rfl

/-- The first item is read as if a comma stood before it. -/
theorem list_first_eq (hp : IsItemHead p) (rest : List Char) (fuel : Nat) :
    list item (fuel + 1) true (p ++ rest) = list item (fuel + 1) false (',' :: (p ++ rest)) := by
  rw [list, list, nextItem_first hp, nextItem_comma hp]

/-- The items of an array are read from their texts. -/
theorem list_first (hp : IsReadBy item p a) (h : List.Forall₂ (IsReadBy item) ps as)
    (rest : List Char) (fuel : Nat) (hfuel : ps.length < fuel) :
    list item (fuel + 1) true (p ++ separated ']' ps ++ rest) = .ok (a :: as, rest) := by
  have hread := list_separated (.cons hp h) rest (fuel + 1) (Nat.succ_lt_succ hfuel)
  rw [separated_cons, List.cons_append, List.cons_append, List.append_assoc] at hread
  rw [List.append_assoc, list_first_eq hp.head]
  exact hread

end

/-! ## Objects -/

theorem nextKey_first (cs : List Char) : nextKey true ('"' :: cs) = .ok (true, cs) := by
  rw [nextKey, skipSpace_cons _ (by decide)]
  simp

theorem nextKey_comma (cs : List Char) : nextKey false (',' :: '"' :: cs) = .ok (true, cs) := by
  rw [nextKey, skipSpace_cons _ (by decide)]
  simp [skipSpace_cons _ (show isSpace '"' = false by decide)]

theorem nextKey_end (first : Bool) (cs : List Char) :
    nextKey first ('\x7d' :: cs) = .ok (false, '\x7d' :: cs) := by
  rw [nextKey, skipSpace_cons _ (by decide)]
  simp

theorem colon_cons (cs : List Char) : colon (':' :: cs) = .ok cs := by
  rw [colon, skipSpace_cons _ (by decide)]
  simp

end Json

/-! ## Events -/

/-- The event as it is written, at its settled instant. -/
def Event.settled (e : Event) : Event := { e with timestamp := e.timestamp.settled }

theorem Event.settled_eq_iff {e : Event} : e.settled = e ↔ e.timestamp.OnMinute := by
  rw [← Instant.settled_eq_iff]
  exact ⟨congrArg Event.timestamp, fun h => by rw [settled, h]⟩

@[simp] theorem Event.settled_settled (e : Event) : e.settled.settled = e.settled :=
  settled_eq_iff.mpr e.timestamp.onMinute_settled

theorem Event.entry_settled (e : Event) : e.settled.entry = e.entry := by
  simp only [entry, settled, Rfc3339.text_settled]

namespace Log

open Json

/-- A text of a form of its own is read from its string. -/
theorem parsedString_quotedChars {α : Type} (expected : String) {parse : String → Except Mismatch α}
    {s : String} {a : α} (h : parse s = .ok a) (rest : List Char) :
    parsedString expected parse (quotedChars s ++ rest) = .ok (a, rest) := by
  rw [quotedChars, List.append_assoc, List.cons_append, parsedString, skipSpace_cons _ (by decide)]
  simp only [List.cons_append, List.nil_append, string_escaped, ok_bind, h]
  rfl

theorem instant_read (t : Instant) (rest : List Char) :
    parsedString Instant.expected (fun s => (Instant.parse s).mapError .malformed)
      (quotedChars (Rfc3339.text t) ++ rest) = .ok (t.settled, rest) := by
  refine parsedString_quotedChars _ ?_ rest
  rw [Instant.parse, Rfc3339.parse_text]
  rfl

theorem status_read (t : Status) (rest : List Char) :
    status (quotedChars t.name ++ rest) = .ok (t, rest) := by
  have hname : statusOfName t.name = .ok t := by rw [statusOfName, Status.ofName?_name]
  have hread := parsedString_quotedChars "variant identifier" hname rest
  rw [quotedChars, List.append_assoc, List.cons_append] at hread ⊢
  rw [status, skipSpace_cons _ (by decide)]
  simp only [if_true, hread]

theorem reason_read (s : String) (rest : List Char) :
    parsedString "a string" .ok (quotedChars s ++ rest) = .ok (s, rest) :=
  parsedString_quotedChars _ rfl rest

theorem part_ok {α : Type} (a : α) : part (.ok a) = .ok a := rfl

/-- A field that is not there yet is read after its colon. -/
theorem single_read {α : Type} (name : String) {item : Reader α} {cs rest : List Char} {a : α}
    (h : item cs = .ok (a, rest)) : single name none item (':' :: cs) = .ok (a, rest) := by
  rw [single, colon_cons, ok_bind, h, part_ok]

theorem fields_timestamp (fuel : Nat) (p : Partial) (t : Instant) (rest : List Char)
    (h : p.timestamp = none) :
    fields (fuel + 1) true p (memberChars ("timestamp", .str (Rfc3339.text t)) ++ rest) =
      fields fuel false { p with timestamp := some t.settled } rest := by
  have hkey := string_escaped "timestamp" (':' :: (quotedChars (Rfc3339.text t) ++ rest))
  have hread := single_read "timestamp" (instant_read t rest)
  rw [memberChars, chars_str, quotedChars, List.append_assoc, List.append_assoc, List.cons_append,
    List.cons_append, List.cons_append, List.nil_append, fields, nextKey_first, part_ok, ok_bind]
  simp only [if_true, hkey, part_ok, ok_bind, h, hread]

theorem fields_status (fuel : Nat) (p : Partial) (t : Status) (rest : List Char)
    (h : p.status = none) :
    fields (fuel + 1) false p (',' :: memberChars ("status", .str t.name) ++ rest) =
      fields fuel false { p with status := some t } rest := by
  have hkey := string_escaped "status" (':' :: (quotedChars t.name ++ rest))
  have hread := single_read "status" (status_read t rest)
  have hne : "status" ≠ "timestamp" := by decide
  rw [memberChars, chars_str, quotedChars, List.cons_append, List.append_assoc, List.append_assoc,
    List.cons_append, List.cons_append, List.cons_append, List.nil_append, fields, nextKey_comma,
    part_ok, ok_bind]
  simp only [if_true, hkey, part_ok, ok_bind, if_neg hne, h, hread]

theorem fields_reason (fuel : Nat) (p : Partial) (r : String) (rest : List Char)
    (h : p.reason = none) :
    fields (fuel + 1) false p (',' :: memberChars ("reason", .str r) ++ rest) =
      fields fuel false { p with reason := some r } rest := by
  have hkey := string_escaped "reason" (':' :: (quotedChars r ++ rest))
  have hread := single_read "reason" (reason_read r rest)
  have hne₁ : "reason" ≠ "timestamp" := by decide
  have hne₂ : "reason" ≠ "status" := by decide
  rw [memberChars, chars_str, quotedChars, List.cons_append, List.append_assoc, List.append_assoc,
    List.cons_append, List.cons_append, List.cons_append, List.nil_append, fields, nextKey_comma,
    part_ok, ok_bind]
  simp only [if_true, hkey, part_ok, ok_bind, if_neg hne₁, if_neg hne₂, h, hread]

theorem fields_end (fuel : Nat) (e : Event) (rest : List Char) :
    fields (fuel + 1) false ⟨some e.timestamp, some e.status, some e.reason⟩ ('\x7d' :: rest) =
      .ok (e, '\x7d' :: rest) := by
  rw [fields, nextKey_end, part_ok, ok_bind]
  rfl

theorem endOfFields_brace (rest : List Char) : endOfFields ('\x7d' :: rest) = .ok rest := by
  rw [endOfFields, skipSpace_cons _ (by decide)]
  simp

/-- An event is read back from its text, at its settled instant. -/
theorem event_read (e : Event) (rest : List Char) :
    event (e.entry.chars ++ rest) = .ok (e.settled, rest) := by
  have hfields (fuel : Nat) : fields (fuel + 4) true ⟨none, none, none⟩
      (memberChars ("timestamp", .str (Rfc3339.text e.timestamp)) ++
        (',' :: memberChars ("status", .str e.status.name) ++
          (',' :: memberChars ("reason", .str e.reason) ++ '\x7d' :: rest))) =
        .ok (e.settled, '\x7d' :: rest) := by
    rw [fields_timestamp _ _ _ _ rfl, fields_status _ _ _ _ rfl, fields_reason _ _ _ _ rfl]
    exact fields_end _ e.settled rest
  have hchars : e.entry.chars ++ rest =
      '\x7b' :: (memberChars ("timestamp", .str (Rfc3339.text e.timestamp)) ++
        (',' :: memberChars ("status", .str e.status.name) ++
          (',' :: memberChars ("reason", .str e.reason) ++ '\x7d' :: rest))) := by
    rw [Event.entry, chars_obj]
    simp
  rw [hchars, event, skipSpace_cons _ (by decide)]
  simp only [if_true]
  obtain ⟨fuel, hfuel⟩ : ∃ fuel, (memberChars ("timestamp", .str (Rfc3339.text e.timestamp)) ++
      (',' :: memberChars ("status", .str e.status.name) ++
        (',' :: memberChars ("reason", .str e.reason) ++ '\x7d' :: rest))).length + 1 =
      fuel + 4 := by
    refine ⟨_, Nat.eq_add_of_sub_eq ?_ rfl⟩
    simp only [List.length_append, List.length_cons]
    omega
  rw [hfuel, hfields, close, endOfFields_brace, ok_bind]
  rfl

theorem isReadBy_entry (e : Event) : IsReadBy event e.entry.chars e.settled where
  head := ⟨'\x7b', _, chars_obj _ _, by decide⟩
  read rest _ := event_read e rest

/-- Events and the settled ones have one text. -/
theorem text_settled (es : List Event) : text (es.map Event.settled) = text es := by
  simp only [text, document, List.map_map, Function.comp_def, Event.entry_settled]

/-- The log of a job is read back from its text, its events settled. -/
theorem parse_text (es : List Event) : parse (text es) = .ok (es.map Event.settled) := by
  rw [parse, text, render, String.toList_ofList, whole]
  cases es with
  | nil => rfl
  | cons e es =>
      have hlen := length_lt_separated ']' (es.map fun x => x.entry.chars)
      have hes : List.Forall₂ (IsReadBy event) (es.map fun x => x.entry.chars)
          (es.map Event.settled) := by
        rw [List.forall₂_map_left_iff, List.forall₂_map_right_iff]
        exact List.forall₂_same.mpr fun x _ => isReadBy_entry x
      have hlist := list_first (isReadBy_entry e) hes []
        (e.entry.chars ++ separated ']' (es.map fun x => x.entry.chars)).length
        (by rw [List.length_append]; omega)
      rw [document, List.map_cons, chars_arr, List.map_map, List.cons_append, events,
        skipSpace_cons _ (by decide)]
      rw [List.append_nil] at hlist
      simp only [Function.comp_def, hlist, ok_bind]
      rfl

end Log

end JobQueue
