import JobQueue.Job.Id
import JobQueue.Store.Column

/-!
# JobQueue.Proofs.Identity

An identity is read back from its text.

- The text is hexadecimal digits and hyphens (`mem_chars`), so each character is one
  byte, and none ends the text of a column early.
- `parse_text` is the round trip; distinct identities have distinct texts
  (`text_inj`).
-/

namespace JobQueue.JobId

open Text

/-! ## Characters -/

/-- The characters of the texts of identities. -/
def alphabet : List Char := '-' :: (List.range 16).map hexDigit

theorem mem_paddedHex {width n : Nat} {c : Char} (h : c ∈ paddedHex width n) : c ∈ alphabet := by
  induction width generalizing n with
  | zero => exact absurd h List.not_mem_nil
  | succ w ih =>
      rw [paddedHex, List.mem_append, List.mem_singleton] at h
      rcases h with h | rfl
      · exact ih h
      · have hlt : n % 16 < 16 := Nat.mod_lt _ (by decide)
        have hdigit : hexDigit (n % 16) = hexDigit n := by rw [hexDigit, hexDigit, Nat.mod_mod]
        exact List.mem_cons_of_mem _
          (List.mem_map.mpr ⟨n % 16, List.mem_range.mpr hlt, hdigit⟩)

/-- Groups have the characters that are grouped, and hyphens. -/
theorem mem_group {ns : List Nat} {cs : List Char} {c : Char} (h : c ∈ group ns cs) :
    c ∈ cs ∨ c = '-' := by
  induction ns generalizing cs with
  | nil => exact absurd h List.not_mem_nil
  | cons n ns ih =>
      cases ns with
      | nil => exact .inl h
      | cons m ns =>
          simp only [group, List.mem_append, List.mem_cons] at h
          rcases h with h | rfl | h
          · exact .inl (List.mem_of_mem_take h)
          · exact .inr rfl
          · rcases ih h with h | h
            · exact .inl (List.mem_of_mem_drop h)
            · exact .inr h

theorem mem_chars {id : JobId} {c : Char} (h : c ∈ id.chars) : c ∈ alphabet := by
  rcases mem_group h with h | rfl
  · exact mem_paddedHex h
  · exact List.mem_cons_self

/-- Characters that take one byte each. -/
theorem byteCount_eq_length {cs : List Char} (h : ∀ c ∈ cs, c ∈ alphabet) :
    byteCount cs = cs.length := by
  have hsize : alphabet.all (fun c => c.utf8Size == 1) = true := by decide
  induction cs with
  | nil => rfl
  | cons c cs ih =>
      have hone := beq_iff_eq.mp (List.all_eq_true.mp hsize c (h c List.mem_cons_self))
      rw [byteCount_cons, hone, ih fun d hd => h d (List.mem_cons_of_mem _ hd), List.length_cons,
        Nat.add_comm]

/-- Between groups there is a hyphen each. -/
theorem length_group {ns : List Nat} {cs : List Char} (hne : ns ≠ [])
    (h : cs.length = ns.foldr (· + ·) 0) : (group ns cs).length = cs.length + (ns.length - 1) := by
  induction ns generalizing cs with
  | nil => exact absurd rfl hne
  | cons n ns ih =>
      cases ns with
      | nil => rfl
      | cons m ns =>
          rw [List.foldr_cons] at h
          have hdrop : (cs.drop n).length = (m :: ns).foldr (· + ·) 0 := by
            rw [List.length_drop]
            omega
          have hrest := ih (by simp) hdrop
          simp only [group, List.length_append, List.length_cons, List.length_take,
            List.length_drop] at hrest ⊢
          rw [hrest]
          omega

/-! ## Reading back -/

theorem digits?_chars (id : JobId) : digits? id.chars = some (paddedHex 32 id.value.val) := by
  have hlen : (paddedHex 32 id.value.val).length = groups.foldr (· + ·) 0 := by
    rw [length_paddedHex]
    rfl
  have hcount : byteCount id.chars = 36 := by
    rw [byteCount_eq_length fun _ => mem_chars, chars, length_group (by decide) hlen,
      length_paddedHex]
    rfl
  have hgrouped : grouped? id.chars = some id.chars := by simp [grouped?, hcount]
  rw [digits?, hcount, if_neg (by decide), hgrouped, Option.bind_some, chars,
    ungroup_group groups _ hlen]

/-- An identity is read back from its text. -/
theorem parse_text (id : JobId) : parse id.text = .ok id := by
  have hvalue : id.value.val % 16 ^ 32 = id.value.val := Nat.mod_eq_of_lt id.value.isLt
  rw [parse, text, String.toList_ofList, digits?_chars, Option.bind_some, hexNumber?_paddedHex,
    hvalue]
  simp [ofNat, Nat.mod_eq_of_lt id.value.isLt]

/-- Distinct identities have distinct texts. -/
theorem text_inj {id id' : JobId} : id.text = id'.text ↔ id = id' := by
  constructor
  · intro h
    have hparse := parse_text id
    rw [h, parse_text id'] at hparse
    exact (Except.ok.inj hparse).symm
  · rintro rfl
    rfl

/-- The text of an identity is read as a whole. -/
theorem readable_text (id : JobId) : Column.readable id.text = id.text := by
  refine Column.readable_of_not_mem fun h => ?_
  rw [text, String.toList_ofList] at h
  exact absurd (mem_chars h) (by decide)

end JobQueue.JobId
