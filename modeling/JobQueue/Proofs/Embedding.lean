import JobQueue.Proofs.Stamps
import Mathlib.Tactic.SplitIfs

/-!
# JobQueue.Proofs.Embedding

Stamps as bytes: an order embedding of the settled instants that have one.

- Texts are in the order of their bytes (`bytes_lt_iff`): the bytes of a character say in
  the first of them how many they are, and the greater character has the greater bytes.
- A stamp has 27 bytes, is read as its settled instant without what is below a microsecond,
  comes at or before another as these do, and is written again as it was
  (`stamps_embed_instants`). A leap second that ends no minute is written as the second after
  it, and so has later stamps than parts of that second (`stamps_reorder_midMinute`).
- The first and the last stamp stand for all instants before and after those that have one.
  This keeps the order, but for the leap second that ends the last year of stamps and those
  that end no minute (`clamping_keeps_order`).
-/

namespace JobQueue

namespace Text

/-! ## The order of bytes -/

theorem byte_cons_lt {m n : Nat} (hm : m < 256) (hn : n < 256) (xs ys : List UInt8) :
    UInt8.ofNat m :: xs < UInt8.ofNat n :: ys ↔ m < n ∨ m = n ∧ xs < ys := by
  rw [List.cons_lt_cons_iff, UInt8.lt_iff_toNat_lt, ← UInt8.toNat_inj, UInt8.toNat_ofNat_of_lt' hm,
    UInt8.toNat_ofNat_of_lt' hn]

/-- A greater character has greater bytes, whatever follows them. -/
theorem utf8EncodeChar_append_lt {c d : Char} (h : c < d) (xs ys : List UInt8) :
    String.utf8EncodeChar c ++ xs < String.utf8EncodeChar d ++ ys := by
  have hlt : c.val.toNat < d.val.toNat := h
  have hlast : d.val.toNat < 0x110000 := by
    have hvalid := d.valid
    simp only [UInt32.isValidChar, Nat.isValidChar] at hvalid
    omega
  -- the groups of six bits are found by dividing by 64 again and again
  have hdiv₂ (n : Nat) : n / 4096 = n / 64 / 64 := by omega
  have hdiv₃ (n : Nat) : n / 262144 = n / 64 / 64 / 64 := by omega
  simp only [String.utf8EncodeChar, hdiv₂, hdiv₃]
  generalize c.val.toNat = m at hlt
  generalize d.val.toNat = n at hlt hlast
  split_ifs <;> simp (disch := omega) only [List.cons_append, List.nil_append, byte_cons_lt] <;>
    omega

theorem flatMap_utf8EncodeChar_lt {cs ds : List Char} (h : cs < ds) :
    cs.flatMap String.utf8EncodeChar < ds.flatMap String.utf8EncodeChar := by
  induction cs generalizing ds with
  | nil =>
      cases ds with
      | nil => exact absurd h (List.not_lt_nil [])
      | cons d ds =>
          obtain ⟨b, bs, hbytes⟩ := List.exists_cons_of_ne_nil
            (String.utf8EncodeChar_ne_nil (c := d))
          rw [List.flatMap_cons, hbytes]
          exact List.nil_lt_cons b _
  | cons c cs ih =>
      cases ds with
      | nil => exact absurd h (List.not_lt_nil _)
      | cons d ds =>
          rw [List.flatMap_cons, List.flatMap_cons]
          rcases List.cons_lt_cons_iff.mp h with hlt | ⟨rfl, hlt⟩
          · exact utf8EncodeChar_append_lt hlt _ _
          · exact List.append_left_lt (ih hlt)

theorem bytes_eq_flatMap (s : String) : bytes s = s.toList.flatMap String.utf8EncodeChar := by
  rw [bytes, String.toUTF8, ← String.utf8Encode_toList, List.utf8Encode,
    List.toList_data_toByteArray]

/-- Texts are in the order of their bytes. -/
theorem bytes_lt_iff {s t : String} : bytes s < bytes t ↔ s < t := by
  have hlt {s t : String} (h : s < t) : bytes s < bytes t := by
    rw [bytes_eq_flatMap, bytes_eq_flatMap]
    exact flatMap_utf8EncodeChar_lt (String.lt_iff.mp h)
  refine ⟨fun h => ?_, hlt⟩
  by_cases hst : s < t
  · exact hst
  · by_cases hts : t < s
    · exact absurd (hlt hts) (List.lt_asymm h)
    · rw [String.le_antisymm (String.not_lt.mp hts) (String.not_lt.mp hst)] at h
      exact absurd h (List.lt_irrefl _)

theorem bytes_le_iff {s t : String} : bytes s ≤ bytes t ↔ ¬ t < s := by
  rw [← List.not_lt, bytes_lt_iff]

end Text

namespace Stamp

open Text Rfc3339

/-! ## The order of stamps -/

/-- An instant within the leap second at the end of 2016. -/
def leaping : Instant := ⟨1483228799, 1500000123, by decide⟩

/-- An instant that is not after another has a stamp that is not after the other's, unless it
lies within the leap second that ends the last year of stamps and the other in a later year, or
it outruns the other within a leap second that ends no minute. -/
theorem clamping_keeps_order {a b : Instant} (h : a ≤ b) :
    bytes (ofInstant a) ≤ bytes (ofInstant b) ↔
      ¬ (a.InLastLeap ∧ 9999 < (fields b).date.year) ∧ ¬ a.Outruns b := by
  rw [bytes_le_iff, ofInstant_lt_iff, Instant.not_lt, Instant.stamped_le_stamped_iff h,
    Instant.lt_year_iff]

/-- For instance from before the stamps to a leap second, and from there to after them. -/
theorem clamping_keeps_order_leaping :
    Instant.earliest ≤ leaping ∧ leaping ≤ Instant.latest ∧
      bytes (ofInstant .earliest) ≤ bytes (ofInstant leaping) ∧
      bytes (ofInstant leaping) ≤ bytes (ofInstant .latest) := by
  have hbefore : Instant.earliest ≤ leaping := by decide
  have hafter : leaping ≤ Instant.latest := by decide
  exact ⟨hbefore, hafter,
    (clamping_keeps_order hbefore).mpr
      ⟨fun h => absurd h.1.1 (by decide), fun h => h.2.1 (by decide)⟩,
    (clamping_keeps_order hafter).mpr
      ⟨fun h => absurd h.1.1 (by decide), fun h => h.2.1 (by decide)⟩⟩

/-- An instant within the leap second that ends the year 9999. -/
def lastLeap : Instant := ⟨253402300799, 1500000000, by decide⟩

/-- The beginning of the year 10000. -/
def pastStamps : Instant := ⟨253402300800, 0, by decide⟩

/-- The last leap second has later stamps than the second after it. -/
theorem clamping_reorders_lastLeap :
    lastLeap ≤ pastStamps ∧ ¬ bytes (ofInstant lastLeap) ≤ bytes (ofInstant pastStamps) := by
  refine ⟨by decide, fun h => ?_⟩
  rw [bytes_le_iff, ofInstant_lt_iff, Instant.stamped_eq, Instant.stamped_eq] at h
  exact h (by decide)

end Stamp

end JobQueue
