import JobQueue.Json.Printer
import JobQueue.Json.Reader
import JobQueue.Proofs.Digits

/-!
# JobQueue.Proofs.Rendering

The text of a document, part by part.

- What follows a document does not matter to its text (`emit_eq`), so the text of an
  array or an object is its parts with commas between them (`separated`).
- A text of a document holds no control character (`printable_chars`): what a string
  may not hold is escaped, and everything else that is written is plain.
-/

namespace JobQueue.Json

open Text

/-! ## Parts -/

/-- Parts after the first one, each after a comma, and the bracket that ends them. -/
def separated (closing : Char) : List (List Char) → List Char
  | [] => [closing]
  | p :: ps => ',' :: p ++ separated closing ps

@[simp] theorem separated_nil (closing : Char) : separated closing [] = [closing] := rfl

@[simp] theorem separated_cons (closing : Char) (p : List Char) (ps : List (List Char)) :
    separated closing (p :: ps) = ',' :: p ++ separated closing ps := rfl

/-- One more part takes the place of the closing bracket. -/
theorem separated_concat (closing : Char) (ps : List (List Char)) (p : List Char) :
    separated closing (ps ++ [p]) = (separated closing ps).dropLast ++ ',' :: p ++ [closing] := by
  induction ps with
  | nil => simp
  | cons q qs ih =>
      have hne : separated closing qs ≠ [] := by cases qs <;> simp
      rw [List.cons_append, separated_cons, ih, separated_cons,
        List.dropLast_append_of_ne_nil hne]
      simp

/-- Between its parts there is room for as many characters as there are parts. -/
theorem length_lt_separated (closing : Char) (ps : List (List Char)) :
    ps.length < (separated closing ps).length := by
  induction ps with
  | nil => simp
  | cons p ps ih =>
      simp only [separated_cons, List.cons_append, List.length_cons, List.length_append]
      omega

/-- A string between its quotes. -/
def quotedChars (s : String) : List Char := '"' :: s.toList.flatMap escapeChar ++ ['"']

theorem emitString_eq (s : String) (rest : List Char) :
    emitString s rest = quotedChars s ++ rest := by
  simp [emitString, quotedChars]

/-- A key, its colon and its value. -/
def memberChars (m : String × Json) : List Char := quotedChars m.1 ++ ':' :: m.2.chars

mutual

/-- What follows a document stands after its text. -/
theorem emit_eq : (v : Json) → (rest : List Char) → emit v rest = emit v [] ++ rest
  | .null, rest | .bool true, rest | .bool false, rest | .arr [], rest | .obj [], rest => by
      simp [emit]
  | .num n, rest => by simp [emit]
  | .str s, rest => by simp [emit, emitString_eq]
  | .arr (v :: items), rest => by
      simp only [emit, List.cons_append]
      rw [emit_eq v, emit_eq v (emitItems items []), emitItems_eq items rest, List.append_assoc]
  | .obj ((k, v) :: members), rest => by
      simp only [emit, emitString_eq, List.cons_append, List.append_assoc]
      rw [emit_eq v, emit_eq v (emitMembers members []), emitMembers_eq members rest,
        List.append_assoc]

theorem emitItems_eq : (items : List Json) → (rest : List Char) →
    emitItems items rest = emitItems items [] ++ rest
  | [], rest => by simp [emitItems]
  | v :: items, rest => by
      simp only [emitItems, List.cons_append]
      rw [emit_eq v, emit_eq v (emitItems items []), emitItems_eq items rest, List.append_assoc]

theorem emitMembers_eq : (members : List (String × Json)) → (rest : List Char) →
    emitMembers members rest = emitMembers members [] ++ rest
  | [], rest => by simp [emitMembers]
  | (k, v) :: members, rest => by
      simp only [emitMembers, emitString_eq, List.cons_append, List.append_assoc]
      rw [emit_eq v, emit_eq v (emitMembers members []), emitMembers_eq members rest,
        List.append_assoc]

end

theorem emitItems_separated (items : List Json) :
    emitItems items [] = separated ']' (items.map chars) := by
  induction items with
  | nil => rfl
  | cons v items ih =>
      rw [emitItems, emit_eq, ih, List.map_cons, separated_cons, chars, List.cons_append]

theorem emitMembers_separated (members : List (String × Json)) :
    emitMembers members [] = separated '\x7d' (members.map memberChars) := by
  induction members with
  | nil => rfl
  | cons m members ih =>
      obtain ⟨k, v⟩ := m
      rw [emitMembers, emitString_eq, emit_eq, ih, List.map_cons, separated_cons, memberChars, chars]
      simp

theorem chars_str (s : String) : (Json.str s).chars = quotedChars s := by
  rw [chars, emit, emitString_eq, List.append_nil]

theorem chars_arr (v : Json) (items : List Json) :
    (Json.arr (v :: items)).chars = '[' :: v.chars ++ separated ']' (items.map chars) := by
  rw [chars, emit, emit_eq, emitItems_separated, chars, List.cons_append]

theorem chars_obj (m : String × Json) (members : List (String × Json)) :
    (Json.obj (m :: members)).chars =
      '\x7b' :: memberChars m ++ separated '\x7d' (members.map memberChars) := by
  obtain ⟨k, v⟩ := m
  rw [chars, emit, emitString_eq, emit_eq, emitMembers_separated, memberChars, chars]
  simp

/-! ## Escapes -/

/-- The letters of escapes of two characters, apart from the slash. -/
def shortEscapes : List Char := ['"', '\\', 'b', 'f', 'n', 'r', 't']

/-- A character of a string stands for itself, or is written with a letter after a
backslash, or with two digits of its number. -/
theorem escapeChar_cases (c : Char) :
    (escapeChar c = [c] ∧ 0x20 ≤ c.toNat ∧ c ≠ '"' ∧ c ≠ '\\') ∨
      (∃ e ∈ shortEscapes, escapeChar c = ['\\', e] ∧ shortEscape? e = some c) ∨
      (c.toNat < 0x20 ∧ escapeChar c = ['\\', 'u', '0', '0',
        Nat.digitChar (c.toNat / 16), Nat.digitChar (c.toNat % 16)]) := by
  unfold escapeChar
  split
  · next h => exact .inr (.inl ⟨'"', by decide, rfl, by rw [h]; rfl⟩)
  split
  · next h => exact .inr (.inl ⟨'\\', by decide, rfl, by rw [h]; rfl⟩)
  split
  · next hq hb h => exact .inl ⟨rfl, h, hq, hb⟩
  split
  · next h => exact .inr (.inl ⟨'n', by decide, rfl, h ▸ rfl⟩)
  split
  · next h => exact .inr (.inl ⟨'r', by decide, rfl, h ▸ rfl⟩)
  split
  · next h => exact .inr (.inl ⟨'t', by decide, rfl, h ▸ rfl⟩)
  split
  · next h =>
      have hc : c = '\x08' := Char.toNat_inj.mp h
      exact .inr (.inl ⟨'b', by decide, rfl, hc ▸ rfl⟩)
  split
  · next h =>
      have hc : c = '\x0c' := Char.toNat_inj.mp h
      exact .inr (.inl ⟨'f', by decide, rfl, hc ▸ rfl⟩)
  · next h _ _ _ _ _ => exact .inr (.inr ⟨by omega, rfl⟩)

/-! ## Control characters -/

/-- Whether a character is no control character below the blank. -/
def isPrintable (c : Char) : Bool := 0x20 ≤ c.toNat

theorem printable_of_mem {word : List Char} {d : Char} (hd : d ∈ word)
    (hword : word.all isPrintable = true) : isPrintable d = true :=
  List.all_eq_true.mp hword d hd

theorem printable_digitChar {n : Nat} (h : n < 16) : isPrintable (Nat.digitChar n) = true := by
  have hall : ∀ k : Fin 16, isPrintable (Nat.digitChar k.val) = true := by decide
  exact hall ⟨n, h⟩

theorem printable_escapeChar {c d : Char} (hd : d ∈ escapeChar c) : isPrintable d = true := by
  rcases escapeChar_cases c with ⟨hc, hle, -, -⟩ | ⟨e, he, hc, -⟩ | ⟨hlt, hc⟩ <;> rw [hc] at hd
  · rw [List.mem_singleton.mp hd]
    exact decide_eq_true hle
  · simp only [List.mem_cons, List.not_mem_nil, or_false] at hd
    rcases hd with rfl | rfl
    · rfl
    · exact printable_of_mem he (by decide)
  · simp only [List.mem_cons, List.not_mem_nil, or_false] at hd
    rcases hd with rfl | rfl | rfl | rfl | rfl | rfl
    · rfl
    · rfl
    · rfl
    · rfl
    · exact printable_digitChar (by omega)
    · exact printable_digitChar (by omega)

theorem printable_quotedChars {s : String} {d : Char} (hd : d ∈ quotedChars s) :
    isPrintable d = true := by
  simp only [quotedChars, List.cons_append, List.mem_cons, List.mem_append, List.mem_flatMap,
    List.not_mem_nil, or_false] at hd
  rcases hd with rfl | ⟨c, -, hd⟩ | rfl
  · rfl
  · exact printable_escapeChar hd
  · rfl

theorem printable_decimal {n : Nat} {d : Char} (hd : d ∈ decimal n) : isPrintable d = true := by
  have hle := (isDigit_iff.mp (isDigit_of_mem_decimal hd)).1
  exact decide_eq_true (by omega)

theorem printable_signed {n : Int} {d : Char} (hd : d ∈ signed n) : isPrintable d = true := by
  unfold signed at hd
  split at hd
  · rcases List.mem_cons.mp hd with rfl | hd
    · rfl
    · exact printable_decimal hd
  · exact printable_decimal hd

theorem printable_positional {digits : List Char} {e : Int} {d : Char}
    (hdigits : ∀ x ∈ digits, isPrintable x = true) (hd : d ∈ Decimal.Form.positional digits e) :
    isPrintable d = true := by
  unfold Decimal.Form.positional at hd
  split at hd
  · simp only [List.cons_append, List.mem_cons, List.mem_append, List.mem_replicate] at hd
    rcases hd with rfl | rfl | ⟨-, rfl⟩ | hd
    · rfl
    · rfl
    · rfl
    · exact hdigits d hd
  · simp only [List.append_assoc, List.mem_append, List.mem_cons, List.mem_replicate] at hd
    rcases hd with hd | ⟨-, rfl⟩ | rfl | hd
    · exact hdigits d (List.mem_of_mem_take hd)
    · rfl
    · rfl
    · split at hd
      · rw [List.mem_singleton.mp hd]
        rfl
      · exact hdigits d (List.mem_of_mem_drop hd)

theorem printable_exponential {digits : List Char} {e : Int} {d : Char}
    (hdigits : ∀ x ∈ digits, isPrintable x = true)
    (hd : d ∈ Decimal.Form.exponential numberForm.plus digits e) : isPrintable d = true := by
  simp only [Decimal.Form.exponential, List.append_assoc, List.mem_append, List.mem_cons,
    List.cons_append] at hd
  rcases hd with hd | hd | rfl | hd | hd
  · exact hdigits d (List.mem_of_mem_take hd)
  · split at hd
    · exact absurd hd List.not_mem_nil
    · rcases List.mem_cons.mp hd with rfl | hd
      · rfl
      · exact hdigits d (List.mem_of_mem_drop hd)
  · rfl
  · split at hd
    · exact absurd hd List.not_mem_nil
    · rw [List.mem_singleton.mp hd]
      rfl
  · exact printable_signed hd

theorem printable_numberChars {n : Number} {d : Char} (hd : d ∈ numberChars n) :
    isPrintable d = true := by
  cases n with
  | int n => exact printable_signed hd
  | float x =>
      simp only [numberChars, Decimal.Form.chars] at hd
      split at hd
      · split at hd
        · next b _ =>
            simp only [Decimal.Form.binary, Decimal.Form.scientific, List.mem_append] at hd
            rcases hd with hd | hd
            · split at hd
              · exact printable_of_mem hd (by decide)
              · exact absurd hd List.not_mem_nil
            · split at hd
              · exact printable_positional (fun _ => printable_decimal) hd
              · exact printable_exponential (fun _ => printable_decimal) hd
        · split at hd
          · exact printable_of_mem hd (by decide)
          · split at hd <;> exact printable_of_mem hd (by decide)
      · exact printable_of_mem hd (by decide)

mutual

/-- The text of a document holds no control character. -/
theorem printable_emit : (v : Json) → (d : Char) → d ∈ emit v [] → isPrintable d = true
  | .null, d, hd | .bool true, d, hd | .bool false, d, hd | .arr [], d, hd | .obj [], d, hd => by
      rw [emit] at hd
      exact printable_of_mem hd (by decide)
  | .num n, d, hd => by
      rw [emit, List.append_nil] at hd
      exact printable_numberChars hd
  | .str s, d, hd => by
      rw [emit, emitString_eq, List.append_nil] at hd
      exact printable_quotedChars hd
  | .arr (v :: items), d, hd => by
      rw [emit, emit_eq, List.mem_cons, List.mem_append] at hd
      rcases hd with rfl | hd | hd
      · rfl
      · exact printable_emit v d hd
      · exact printable_emitItems items d hd
  | .obj ((k, v) :: members), d, hd => by
      rw [emit, emitString_eq, emit_eq] at hd
      simp only [List.mem_cons, List.mem_append] at hd
      rcases hd with rfl | hd | rfl | hd | hd
      · rfl
      · exact printable_quotedChars hd
      · rfl
      · exact printable_emit v d hd
      · exact printable_emitMembers members d hd

theorem printable_emitItems : (items : List Json) → (d : Char) → d ∈ emitItems items [] →
    isPrintable d = true
  | [], d, hd => by
      rw [emitItems, List.mem_singleton] at hd
      rw [hd]
      rfl
  | v :: items, d, hd => by
      rw [emitItems, emit_eq, List.mem_cons, List.mem_append] at hd
      rcases hd with rfl | hd | hd
      · rfl
      · exact printable_emit v d hd
      · exact printable_emitItems items d hd

theorem printable_emitMembers : (members : List (String × Json)) → (d : Char) →
    d ∈ emitMembers members [] → isPrintable d = true
  | [], d, hd => by
      rw [emitMembers, List.mem_singleton] at hd
      rw [hd]
      rfl
  | (k, v) :: members, d, hd => by
      rw [emitMembers, emitString_eq, emit_eq] at hd
      simp only [List.mem_cons, List.mem_append] at hd
      rcases hd with rfl | hd | rfl | hd | hd
      · rfl
      · exact printable_quotedChars hd
      · rfl
      · exact printable_emit v d hd
      · exact printable_emitMembers members d hd

end

/-- A stored document is read as a whole: there is no NUL that would end it early. -/
theorem nul_not_mem_render (v : Json) : '\x00' ∉ v.render.toList := by
  intro h
  rw [render, String.toList_ofList] at h
  have := printable_emit v _ h
  simp [isPrintable] at this

end JobQueue.Json
