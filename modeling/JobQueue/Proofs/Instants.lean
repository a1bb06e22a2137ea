import JobQueue.Proofs.Dates
import JobQueue.Proofs.Digits
import JobQueue.Time.Format

/-!
# JobQueue.Proofs.Instants

An instant is read back from its text, whatever its year, its fraction of a second, and
also within a leap second at the end of a minute (`parse_text_of_onMinute`).

- A text has no way to write a leap second after any other second: it has the second after
  that one in its place. The instant that is written so is `Instant.settled`, and it is what
  every text is read as (`parse_text`).
- The parts of an instant name the settled one (`toInstant_fields`), and each part is read
  as it was written, one after the other.
-/

namespace JobQueue

/-! ## Results -/

theorem ok_bind {ε α β : Type} (a : α) (f : α → Except ε β) : (.ok a >>= f) = f a := rfl

/-- What binds a result is a result itself. -/
theorem bind_eq_ok {ε α β : Type} {x : Except ε α} {f : α → Except ε β} {b : β}
    (h : (x >>= f) = .ok b) : ∃ a, x = .ok a ∧ f a = .ok b := by
  cases x with
  | error e => cases h
  | ok a => exact ⟨a, rfl, h⟩

/-! ## Settled instants -/

namespace Instant

theorem ext {a b : Instant} (hsecs : a.secs = b.secs) (hnanos : a.nanos = b.nanos) : a = b := by
  cases a
  cases b
  cases hsecs
  cases hnanos
  rfl

/-- The instant lies within no leap second but one that ends a minute. -/
def OnMinute (t : Instant) : Prop := 10 ^ 9 ≤ t.nanos → t.secs % 60 = 59

instance (t : Instant) : Decidable t.OnMinute :=
  inferInstanceAs (Decidable (10 ^ 9 ≤ t.nanos → t.secs % 60 = 59))

theorem onMinute_of_not_isLeap {t : Instant} (h : t.isLeap = false) : t.OnMinute :=
  fun hleap => absurd hleap (of_decide_eq_false h)

/-- The instant as it is written: within a leap second that ends no minute, the nanoseconds
are those of the next second. -/
def settled (t : Instant) : Instant :=
  if h : 10 ^ 9 ≤ t.nanos ∧ t.secs % 60 ≠ 59 then
    ⟨t.secs + 1, t.nanos - 10 ^ 9, by
      obtain ⟨h₁, h₂, h₃⟩ := t.valid
      exact ⟨by omega, by omega, by omega⟩⟩
  else t

theorem settled_of_onMinute {t : Instant} (h : t.OnMinute) : t.settled = t :=
  dif_neg fun hleap => hleap.2 (h hleap.1)

/-- A leap second that ends no minute, as it is written. -/
theorem settled_of_not_onMinute {t : Instant} (h : ¬ t.OnMinute) :
    10 ^ 9 ≤ t.nanos ∧ t.secs % 60 ≠ 59 ∧ t.settled.secs = t.secs + 1 ∧
      t.settled.nanos + 10 ^ 9 = t.nanos := by
  have hleap : 10 ^ 9 ≤ t.nanos ∧ t.secs % 60 ≠ 59 := Classical.not_imp.mp h
  rw [settled, dif_pos hleap]
  exact ⟨hleap.1, hleap.2, rfl, Nat.sub_add_cancel hleap.1⟩

theorem settled_eq_iff {t : Instant} : t.settled = t ↔ t.OnMinute := by
  refine ⟨fun heq => ?_, settled_of_onMinute⟩
  by_cases h : t.OnMinute
  · exact h
  · have hsecs := (settled_of_not_onMinute h).2.2.1
    rw [heq] at hsecs
    omega

@[simp] theorem onMinute_settled (t : Instant) : t.settled.OnMinute := by
  by_cases h : t.OnMinute
  · rwa [settled_of_onMinute h]
  · obtain ⟨-, -, -, hnanos⟩ := settled_of_not_onMinute h
    have hlt := t.valid.2.2
    intro hleap
    omega

@[simp] theorem settled_settled (t : Instant) : t.settled.settled = t.settled :=
  settled_of_onMinute t.onMinute_settled

end Instant

namespace Rfc3339

open Text Calendar

/-! ## Parts of an instant -/

/-- An instant and the settled one have the same parts. -/
@[simp] theorem fields_settled (t : Instant) : fields t.settled = fields t := by
  by_cases h : t.OnMinute
  · rw [Instant.settled_of_onMinute h]
  · obtain ⟨hleap, hsecond, hsecs, hnanos⟩ := Instant.settled_of_not_onMinute h
    have hlt := t.valid.2.2
    have hday : (t.secs + 1) / 86400 = t.secs / 86400 := by omega
    -- the next second belongs to the same minute
    have hclock : ((t.secs + 1) % 86400).toNat = (t.secs % 86400).toNat + 1 := by omega
    have hhour : ((t.secs % 86400).toNat + 1) / 3600 = (t.secs % 86400).toNat / 3600 := by omega
    have hminute : ((t.secs % 86400).toNat + 1) / 60 = (t.secs % 86400).toNat / 60 := by omega
    have hsec : ((t.secs % 86400).toNat + 1) % 60 + t.settled.nanos / 10 ^ 9 =
        (t.secs % 86400).toNat % 60 + t.nanos / 10 ^ 9 := by omega
    have hrest : t.settled.nanos % 10 ^ 9 = t.nanos % 10 ^ 9 := by omega
    simp only [fields, hsecs, hday, hclock, hhour, hminute, hsec, hrest]

@[simp] theorem text_settled (t : Instant) : text t.settled = text t := by
  simp only [text, chars, fields_settled]

/-- The years of instants. -/
theorem year_bounds (t : Instant) :
    -262143 ≤ (fields t).date.year ∧ (fields t).date.year ≤ 262142 := by
  obtain ⟨h₁, h₂, -⟩ := t.valid
  obtain ⟨hlo, hhi⟩ := yearOf_bounds (t.secs / 86400)
  have hfirst : yearStart (-262143) = -96465292 := by decide
  have hpast : yearStart 262143 = 95026237 := by decide
  change -262143 ≤ yearOf (t.secs / 86400) ∧ yearOf (t.secs / 86400) ≤ 262142
  generalize yearOf (t.secs / 86400) = y at hlo hhi
  constructor
  · refine Int.not_lt.mp fun hlt => ?_
    have hle : yearStart (y + 1) ≤ yearStart (-262143) := yearStart_mono (by omega)
    omega
  · refine Int.not_lt.mp fun hlt => ?_
    have hle : yearStart 262143 ≤ yearStart y := yearStart_mono (by omega)
    omega

/-- The hours, minutes, seconds and nanoseconds of instants. -/
theorem clock_bounds (t : Instant) :
    (fields t).hour ≤ 23 ∧ (fields t).minute ≤ 59 ∧ (fields t).second ≤ 60 ∧
      (fields t).nanos < 10 ^ 9 := by
  obtain ⟨-, -, h₃⟩ := t.valid
  simp only [fields]
  omega

/-- Second 60 is the last second of its minute, and its nanoseconds count from a billion. -/
theorem second_spec {t : Instant} (h : t.OnMinute) :
    (if (fields t).second = 60 then 59 else (fields t).second) = (t.secs % 86400).toNat % 60 ∧
      (fields t).nanos + (if (fields t).second = 60 then 10 ^ 9 else 0) = t.nanos := by
  obtain ⟨-, -, h₃⟩ := t.valid
  have hsecond : (fields t).second = (t.secs % 86400).toNat % 60 + t.nanos / 10 ^ 9 := rfl
  have hnanos : (fields t).nanos = t.nanos % 10 ^ 9 := rfl
  by_cases hleap : 10 ^ 9 ≤ t.nanos
  · have hlast := h hleap
    have h60 : (fields t).second = 60 := by omega
    rw [if_pos h60, if_pos h60]
    omega
  · have hne : (fields t).second ≠ 60 := by omega
    rw [if_neg hne, if_neg hne]
    omega

/-- The parts of an instant name it, unless it lies within a leap second that ends no
minute. -/
theorem toInstant_of_onMinute {t : Instant} (h : t.OnMinute) : toInstant (fields t) 0 = .ok t := by
  obtain ⟨hylo, hyhi⟩ := year_bounds t
  obtain ⟨hhour, hminute, hsecond, -⟩ := clock_bounds t
  obtain ⟨hclock, hnanos⟩ := second_spec h
  have hvalid : (fields t).date.isValid = true := isValid_ofDay _
  have hday : (fields t).date.toDay = t.secs / 86400 := toDay_ofDay _
  have hof : Instant.of? t.secs t.nanos = some t := by rw [Instant.of?, dif_pos t.valid]
  have hdate : ¬ ((!(fields t).date.isValid || (fields t).date.year < -262143 ||
      262142 < (fields t).date.year) = true) := by
    simp only [hvalid, Bool.not_true, Bool.false_or, Bool.or_eq_true, decide_eq_true_eq]
    omega
  have htime : ¬ ((decide (23 < (fields t).hour) || decide (59 < (fields t).minute) ||
      decide (60 < (fields t).second)) = true) := by
    simp only [Bool.or_eq_true, decide_eq_true_eq]
    omega
  have hsecs : (fields t).date.toDay * 86400 +
      ((fields t).hour * 3600 + (fields t).minute * 60 + (t.secs % 86400).toNat % 60 : Nat) - 0 =
        t.secs := by
    have hhour' : (fields t).hour = (t.secs % 86400).toNat / 3600 := rfl
    have hminute' : (fields t).minute = (t.secs % 86400).toNat / 60 % 60 := rfl
    rw [hday]
    omega
  rw [toInstant, if_neg hdate, if_neg htime, if_neg (by decide)]
  simp only [hclock, hnanos, hsecs, hof]

/-- The parts of an instant name the settled one. -/
theorem toInstant_fields (t : Instant) : toInstant (fields t) 0 = .ok t.settled := by
  rw [← fields_settled]
  exact toInstant_of_onMinute t.onMinute_settled

/-! ## Runs of digits -/

/-- A run of digits is read up to its end. -/
theorem upTo_digits {limit : Nat} {ds rest : List Char} (hne : ds ≠ [])
    (hds : ∀ c ∈ ds, isDigit c = true) (htake : (ds ++ rest.takeWhile isDigit).take limit = ds) :
    upTo limit (ds ++ rest) = .ok (value ds, rest) := by
  have hrun : (ds ++ rest).takeWhile isDigit = ds ++ rest.takeWhile isDigit :=
    List.takeWhile_append_of_pos hds
  cases ds with
  | nil => exact absurd rfl hne
  | cons d ds =>
      have hd := hds d List.mem_cons_self
      rw [List.cons_append] at hrun ⊢
      simp only [upTo, hd, if_true, hrun, htake]
      rw [← List.cons_append, List.drop_left]

/-- A number of a fixed width is read as it was written. -/
theorem upTo_padded {width n : Nat} (hwidth : width ≠ 0) (hn : n < 10 ^ width)
    (rest : List Char) : upTo width (padded width n ++ rest) = .ok (n, rest) := by
  have htake : (padded width n ++ rest.takeWhile isDigit).take width = padded width n :=
    List.take_left' (length_padded width n)
  rw [upTo_digits (padded_ne_nil n hwidth) (fun _ => isDigit_of_mem_padded) htake, value_padded,
    Nat.mod_eq_of_lt hn]

/-! ## Reading back -/

theorem trimLeft_cons {c : Char} (cs : List Char) (h : isBlank c = false) :
    trimLeft (c :: cs) = c :: cs := by
  rw [trimLeft, List.dropWhile_cons, if_neg (by simp [h])]

theorem isBlank_of_isDigit {c : Char} (h : isDigit c = true) : isBlank c = false := by
  obtain ⟨hlo, hhi⟩ := isDigit_iff.mp h
  simp only [isBlank, Bool.or_eq_false_iff, Bool.and_eq_false_iff, decide_eq_false_iff_not,
    beq_eq_false_iff_ne]
  omega

theorem trimLeft_digits {ds : List Char} (rest : List Char) (hne : ds ≠ [])
    (hds : ∀ c ∈ ds, isDigit c = true) : trimLeft (ds ++ rest) = ds ++ rest := by
  cases ds with
  | nil => exact absurd rfl hne
  | cons d ds =>
      rw [List.cons_append, trimLeft_cons _ (isBlank_of_isDigit (hds d List.mem_cons_self))]

theorem lenientMark_cons {c : Char} (cs : List Char) (h : isBlank c = false) :
    lenientMark c (c :: cs) = .ok ((), cs) := by
  rw [lenientMark, trimLeft_cons _ h, oneOf]
  simp

/-- A field of two digits. -/
theorem lenientField_padded {lo hi n : Nat} (hlo : lo ≤ n) (hhi : n ≤ hi) (hn : n < 100)
    (rest : List Char) : lenientField 2 lo hi (padded 2 n ++ rest) = .ok (n, rest) := by
  rw [lenientField, trimLeft_digits rest (padded_ne_nil n (by decide))
    (fun _ => isDigit_of_mem_padded), upTo_padded (by decide) hn, ok_bind]
  simp [hlo, hhi]

/-- A year after its sign. -/
theorem upTo_signed (zeros n : Nat) (rest : List Char) :
    upTo (List.replicate zeros '0' ++ decimal n ++ '-' :: rest).length
      (List.replicate zeros '0' ++ decimal n ++ '-' :: rest) = .ok (n, '-' :: rest) := by
  have hne : List.replicate zeros '0' ++ decimal n ≠ [] := by
    intro hnil
    exact Nat.toDigits_ne_nil (List.append_eq_nil_iff.mp hnil).2
  have hds : ∀ c ∈ List.replicate zeros '0' ++ decimal n, isDigit c = true := by
    intro c hc
    rcases List.mem_append.mp hc with hc | hc
    · rw [(List.mem_replicate.mp hc).2]
      decide
    · exact isDigit_of_mem_decimal hc
  have hstop : ('-' :: rest).takeWhile isDigit = [] := rfl
  rw [upTo_digits hne hds (by rw [hstop, List.append_nil]; exact List.take_of_length_le (by simp)),
    value_zeros_decimal]

/-- The years of instants fit into 32 bits. -/
theorem year_fits {y : Int} (hlo : -262143 ≤ y) (hhi : y ≤ 262142) :
    (decide (-2 ^ 31 ≤ y) && decide (y < 2 ^ 31)) = true := by
  rw [Bool.and_eq_true, decide_eq_true_eq, decide_eq_true_eq]
  omega

theorem lenientYear_minus {cs rest : List Char} {n : Nat} (h : upTo cs.length cs = .ok (n, rest))
    (hn : n ≤ 262143) : lenientYear ('-' :: cs) = .ok (-(n : Int), rest) := by
  rw [lenientYear, trimLeft_cons _ (by decide)]
  simp only [h, ok_bind, year_fits (y := -(n : Int)) (by omega) (by omega), if_true]

theorem lenientYear_plus {cs rest : List Char} {n : Nat} (h : upTo cs.length cs = .ok (n, rest))
    (hn : n ≤ 262142) : lenientYear ('+' :: cs) = .ok ((n : Int), rest) := by
  have hlo : (-262143 : Int) ≤ n := Int.le_trans (by decide) (Int.natCast_nonneg n)
  rw [lenientYear, trimLeft_cons _ (by decide)]
  split
  · next heq => exact absurd (List.cons.inj heq).1 (by decide)
  · next heq =>
      rw [← (List.cons.inj heq).2, h, ok_bind]
      exact if_pos (year_fits hlo (by omega))
  · next hne => exact absurd rfl (hne _)

/-- A year is read as it was written. -/
theorem lenientYear_yearText {y : Int} (hlo : -262143 ≤ y) (hhi : y ≤ 262142)
    (rest : List Char) : lenientYear (yearText y ++ '-' :: rest) = .ok (y, '-' :: rest) := by
  by_cases hplain : 0 ≤ y ∧ y ≤ 9999
  · have htext : yearText y = padded 4 y.toNat := by
      rw [yearText, if_pos (by simpa using hplain)]
    have hne : padded 4 y.toNat ≠ [] := padded_ne_nil _ (by decide)
    obtain ⟨d, ds, hds⟩ := List.exists_cons_of_ne_nil hne
    have hdigit : isDigit d = true := isDigit_of_mem_padded (hds ▸ List.mem_cons_self)
    have hread : upTo 4 (padded 4 y.toNat ++ '-' :: rest) = .ok (y.toNat, '-' :: rest) :=
      upTo_padded (by decide) (by omega) _
    have hyear : ((y.toNat : Nat) : Int) = y := Int.toNat_of_nonneg hplain.1
    rw [htext]
    rw [hds, List.cons_append] at hread ⊢
    rw [lenientYear, trimLeft_cons _ (isBlank_of_isDigit hdigit)]
    have hother : ∀ c, isDigit c = false → d ≠ c := by
      rintro c hc rfl
      rw [hdigit] at hc
      exact absurd hc (by decide)
    split
    · next heq => exact absurd (List.cons.inj heq).1 (hother '-' (by decide))
    · next heq => exact absurd (List.cons.inj heq).1 (hother '+' (by decide))
    · rw [hread, ok_bind]
      simp only [hyear, year_fits hlo hhi, if_true]
  · have htext : yearText y = (if y < 0 then '-' else '+') ::
        (List.replicate (4 - (decimal y.natAbs).length) '0' ++ decimal y.natAbs) := by
      rw [yearText, if_neg (by simpa using hplain)]
    have hread := upTo_signed (4 - (decimal y.natAbs).length) y.natAbs rest
    rw [htext, List.cons_append]
    by_cases hneg : y < 0
    · rw [if_pos hneg, lenientYear_minus hread (by omega), show -((y.natAbs : Nat) : Int) = y by omega]
    · rw [if_neg hneg, lenientYear_plus hread (by omega), show ((y.natAbs : Nat) : Int) = y by omega]

/-- Digits of the second that are written with some zeros less. -/
theorem optionalFraction_padded {width n : Nat} (hwidth : width ≠ 0) (hle : width ≤ 9)
    (hn : n < 10 ^ width) :
    optionalFraction ('.' :: padded width n ++ ['Z']) = .ok (n * 10 ^ (9 - width), ['Z']) := by
  obtain ⟨d, ds, hds⟩ := List.exists_cons_of_ne_nil (padded_ne_nil n hwidth)
  have hdigit : isDigit d = true := isDigit_of_mem_padded (hds ▸ List.mem_cons_self)
  have hstop : List.takeWhile isDigit ['Z'] = [] := rfl
  have hrun : (padded width n ++ ['Z']).takeWhile isDigit = padded width n := by
    rw [List.takeWhile_append_of_pos fun _ => isDigit_of_mem_padded, hstop, List.append_nil]
  have hkept : (padded width n).take 9 = padded width n :=
    List.take_of_length_le (by rw [length_padded]; exact hle)
  have hdrop : (padded width n ++ ['Z']).drop (padded width n).length = ['Z'] := List.drop_left
  have hvalue : value (padded width n) = n := by rw [value_padded, Nat.mod_eq_of_lt hn]
  have hlen := length_padded width n
  rw [hds] at hrun hkept hdrop hvalue hlen ⊢
  rw [List.cons_append] at hrun hdrop ⊢
  simp only [optionalFraction, List.cons_append, fraction, hdigit, if_true, hrun, hkept, hvalue,
    hlen]
  rw [← hlen, hdrop, hlen]

/-- The digits of the second are read as they were written. -/
theorem optionalFraction_fractionText {n : Nat} (hn : n < 10 ^ 9) :
    optionalFraction (fractionText n ++ ['Z']) = .ok (n, ['Z']) := by
  rw [fractionText]
  split
  · next hzero =>
      rw [hzero]
      rfl
  · split
    · next hmillis =>
        rw [optionalFraction_padded (by decide) (by decide) (by omega)]
        rw [show n / 10 ^ 6 * 10 ^ (9 - 3) = n by omega]
    · split
      · next hmicros =>
          rw [optionalFraction_padded (by decide) (by decide) (by omega)]
          rw [show n / 10 ^ 3 * 10 ^ (9 - 6) = n by omega]
      · rw [optionalFraction_padded (by decide) (by decide) hn]
        rw [show n * 10 ^ (9 - 9) = n by omega]

/-- The text of an instant is read as the settled instant. -/
theorem parse_text (t : Instant) : parseLenient (text t) = .ok t.settled := by
  obtain ⟨hylo, hyhi⟩ := year_bounds t
  obtain ⟨hhour, hminute, hsecond, hnanos⟩ := clock_bounds t
  obtain ⟨hmlo, hmhi, hdlo, hdhi⟩ := ofDay_bounds (t.secs / 86400)
  have hmonth : (fields t).date.month = (Date.ofDay (t.secs / 86400)).month := rfl
  have hday : (fields t).date.day = (Date.ofDay (t.secs / 86400)).day := rfl
  rw [← hmonth] at hmlo hmhi
  rw [← hday] at hdlo hdhi
  have hT : ∀ cs, oneOf ['T', 't', ' '] ('T' :: cs) = .ok ((), cs) := fun _ => rfl
  have hdone := toInstant_fields t
  rw [parseLenient, text, String.toList_ofList, chars, civilText]
  simp only [List.append_assoc, List.cons_append, lenientYear_yearText hylo hyhi, ok_bind,
    lenientMark_cons _ (show isBlank '-' = false by decide),
    lenientMark_cons _ (show isBlank ':' = false by decide),
    lenientField_padded hmlo hmhi (by omega), lenientField_padded hdlo hdhi (by omega), hT,
    lenientField_padded (Nat.zero_le _) hhour (by omega),
    lenientField_padded (Nat.zero_le _) hminute (by omega),
    lenientField_padded (Nat.zero_le _) hsecond (by omega),
    optionalFraction_fractionText hnanos]
  exact hdone

/-- An instant is read back from its text. -/
theorem parse_text_of_onMinute {t : Instant} (h : t.OnMinute) :
    parseLenient (text t) = .ok t := by
  rw [parse_text, Instant.settled_of_onMinute h]

end Rfc3339

end JobQueue
