import JobQueue.Proofs.Instants
import JobQueue.Time.Stamp
import Mathlib.Tactic.SplitIfs

/-!
# JobQueue.Proofs.Stamps

What a stamp keeps of an instant (`Instant.stamped`): all but the part below a
microsecond of the settled instant in the years 1 to 9999, and the first or the last stamp
outside them.

- A stamp is read as what it keeps (`parse_ofInstant`).
- Stamps are in the order of what they keep (`ofInstant_lt_iff`), also within the leap second
  that ends a minute: the parts of an instant are written from the greatest to the smallest,
  each with a width of its own.
- What is kept is in the order of the instants, but for two kinds of leap seconds
  (`stamped_le_stamped_iff`). What is kept of the one that ends the last year of stamps comes
  after the last stamp, and one that ends no minute is kept as the second after it
  (`Instant.Outruns`).
-/

namespace JobQueue

/-! ## The order of instants -/

namespace Instant

theorem lt_iff {a b : Instant} :
    a < b ↔ a.secs < b.secs ∨ (a.secs = b.secs ∧ a.nanos < b.nanos) := Iff.rfl

theorem le_iff {a b : Instant} :
    a ≤ b ↔ a.secs < b.secs ∨ (a.secs = b.secs ∧ a.nanos ≤ b.nanos) := Iff.rfl

theorem not_lt {a b : Instant} : ¬ a < b ↔ b ≤ a := by
  rw [lt_iff, le_iff]
  omega

theorem le_trans {a b c : Instant} (h : a ≤ b) (h' : b ≤ c) : a ≤ c := by
  rw [le_iff] at h h' ⊢
  omega

/-- An instant is not after the settled one. -/
theorem le_settled (t : Instant) : t ≤ t.settled := by
  by_cases h : t.OnMinute
  · rw [settled_of_onMinute h, le_iff]
    omega
  · obtain ⟨-, -, hsecs, -⟩ := settled_of_not_onMinute h
    rw [le_iff]
    omega

theorem lt_trichotomy (a b : Instant) : a < b ∨ a = b ∨ b < a := by
  by_cases hab : a < b
  · exact .inl hab
  · by_cases hba : b < a
    · exact .inr (.inr hba)
    · rw [lt_iff] at hab hba
      exact .inr (.inl (ext (by omega) (by omega)))

theorem lt_asymm {a b : Instant} (h : a < b) : ¬ b < a := by
  rw [lt_iff] at h ⊢
  omega

/-! ## What stamps keep -/

/-- The instant lies in a year that stamps have. -/
def HasStamp (t : Instant) : Prop :=
  1 ≤ (Rfc3339.fields t).date.year ∧ (Rfc3339.fields t).date.year ≤ 9999

/-- The instant of the first stamp. -/
def firstStamped : Instant := ⟨-62135596800, 0, by decide⟩

/-- The instant of the last stamp. -/
def lastStamped : Instant := ⟨253402300799, 999999000, by decide⟩

/-- What the stamp of an instant keeps of it. -/
def stamped (t : Instant) : Instant :=
  if (Rfc3339.fields t).date.year < 1 then firstStamped
  else if 9999 < (Rfc3339.fields t).date.year then lastStamped
  else t.settled.truncMicros

theorem hasStamp_settled {t : Instant} : t.settled.HasStamp ↔ t.HasStamp := by
  rw [HasStamp, Rfc3339.fields_settled, HasStamp]

theorem stamped_of_hasStamp {t : Instant} (h : t.HasStamp) :
    t.stamped = t.settled.truncMicros := by
  rw [stamped, if_neg (Int.not_lt.mpr h.1), if_neg (Int.not_lt.mpr h.2)]

/-- All but the part below a microsecond is kept of an instant that is settled. -/
theorem stamped_of_onMinute {t : Instant} (h : t.HasStamp) (hon : t.OnMinute) :
    t.stamped = t.truncMicros := by
  rw [stamped_of_hasStamp h, settled_of_onMinute hon]

theorem stamped_of_not_isLeap {t : Instant} (h : t.HasStamp) (hleap : t.isLeap = false) :
    t.stamped = t.truncMicros :=
  stamped_of_onMinute h (onMinute_of_not_isLeap hleap)

/-- The first year of stamps, in seconds. -/
theorem year_lt_one_iff {t : Instant} :
    (Rfc3339.fields t).date.year < 1 ↔ t.secs < -62135596800 := by
  have hfirst : Calendar.yearStart 1 = -719162 := by decide
  have hyear : 1 ≤ Calendar.yearOf (t.secs / 86400) ↔ -719162 ≤ t.secs / 86400 := by
    rw [Calendar.le_yearOf_iff, hfirst]
  change Calendar.yearOf (t.secs / 86400) < 1 ↔ _
  omega

/-- The first year after those of stamps, in seconds. -/
theorem lt_year_iff {t : Instant} :
    9999 < (Rfc3339.fields t).date.year ↔ 253402300800 ≤ t.secs := by
  have hpast : Calendar.yearStart 10000 = 2932897 := by decide
  have hyear : 10000 ≤ Calendar.yearOf (t.secs / 86400) ↔ 2932897 ≤ t.secs / 86400 := by
    rw [Calendar.le_yearOf_iff, hpast]
  change 9999 < Calendar.yearOf (t.secs / 86400) ↔ _
  omega

/-- The years of stamps, in seconds. -/
theorem hasStamp_iff {t : Instant} :
    t.HasStamp ↔ -62135596800 ≤ t.secs ∧ t.secs < 253402300800 := by
  rw [HasStamp, ← Int.not_lt, year_lt_one_iff, ← Int.not_lt, lt_year_iff]
  omega

/-- What is kept of an instant, by its seconds. -/
theorem stamped_eq (t : Instant) : t.stamped =
    if t.secs < -62135596800 then firstStamped
    else if 253402300800 ≤ t.secs then lastStamped
    else t.settled.truncMicros := by
  simp only [stamped, year_lt_one_iff, lt_year_iff]

/-- The instant lies within the leap second that ends the last year of stamps. -/
def InLastLeap (t : Instant) : Prop := t.secs = 253402300799 ∧ 10 ^ 9 ≤ t.nanos

/-- The instant has a stamp and lies within a leap second that ends no minute, further into it
than the other one into the second after. -/
def Outruns (a b : Instant) : Prop :=
  a.HasStamp ∧ ¬ a.OnMinute ∧ b.secs = a.secs + 1 ∧ b.nanos / 1000 < (a.nanos - 10 ^ 9) / 1000

/-- What is kept of a later instant is later, or the same, unless the later one has no stamp of
its own and the earlier one lies within the last leap second, or the earlier one outruns it. -/
theorem stamped_le_stamped_iff {a b : Instant} (h : a ≤ b) :
    a.stamped ≤ b.stamped ↔
      ¬ (a.InLastLeap ∧ 253402300800 ≤ b.secs) ∧ ¬ a.Outruns b := by
  have hfirst : firstStamped.secs = -62135596800 ∧ firstStamped.nanos = 0 := ⟨rfl, rfl⟩
  have hlast : lastStamped.secs = 253402300799 ∧ lastStamped.nanos = 999999000 := ⟨rfl, rfl⟩
  have hvalid := a.valid.2.2
  have hvalid' := b.valid.2.2
  have hkept (t : Instant) : t.settled.truncMicros.secs = t.settled.secs ∧
      t.settled.truncMicros.nanos = t.settled.nanos / 1000 * 1000 := ⟨rfl, rfl⟩
  have ha := hkept a
  have hb := hkept b
  rw [le_iff] at h
  rw [stamped_eq, stamped_eq, le_iff, InLastLeap]
  -- each of the two is settled already, or a leap second that ends no minute
  by_cases hon : a.OnMinute
  · have hbehind : ¬ a.Outruns b := fun hout => hout.2.1 hon
    simp only [hbehind, not_false_eq_true, and_true]
    rw [settled_of_onMinute hon] at ha ⊢
    by_cases hon' : b.OnMinute
    · rw [settled_of_onMinute hon'] at hb ⊢
      split_ifs <;> omega
    · obtain ⟨hleap', hsecond', hsecs', hnanos'⟩ := settled_of_not_onMinute hon'
      split_ifs <;> omega
  · obtain ⟨hleap, hsecond, hsecs, hnanos⟩ := settled_of_not_onMinute hon
    simp only [Outruns, hasStamp_iff, hon, not_false_eq_true, true_and]
    by_cases hon' : b.OnMinute
    · rw [settled_of_onMinute hon'] at hb ⊢
      rw [OnMinute] at hon'
      split_ifs <;> omega
    · obtain ⟨hleap', hsecond', hsecs', hnanos'⟩ := settled_of_not_onMinute hon'
      split_ifs <;> omega

theorem hasStamp_truncMicros {t : Instant} : t.truncMicros.HasStamp ↔ t.HasStamp := Iff.rfl

theorem truncMicros_truncMicros (t : Instant) : t.truncMicros.truncMicros = t.truncMicros :=
  ext rfl (show t.nanos / 1000 * 1000 / 1000 * 1000 = t.nanos / 1000 * 1000 by omega)

theorem onMinute_truncMicros {t : Instant} : t.truncMicros.OnMinute ↔ t.OnMinute := by
  have hleap : 10 ^ 9 ≤ t.nanos / 1000 * 1000 ↔ 10 ^ 9 ≤ t.nanos := by omega
  rw [OnMinute, OnMinute, show t.truncMicros.nanos = t.nanos / 1000 * 1000 from rfl, hleap]
  rfl

theorem settled_truncMicros (t : Instant) : t.truncMicros.settled = t.settled.truncMicros := by
  by_cases h : t.OnMinute
  · rw [settled_of_onMinute h, settled_of_onMinute (onMinute_truncMicros.mpr h)]
  · obtain ⟨-, -, hsecs, hnanos⟩ := settled_of_not_onMinute h
    obtain ⟨-, -, hsecs', hnanos'⟩ := settled_of_not_onMinute (mt onMinute_truncMicros.mp h)
    have htrunc : t.truncMicros.nanos = t.nanos / 1000 * 1000 := rfl
    refine ext (hsecs'.trans hsecs.symm) ?_
    change t.truncMicros.settled.nanos = t.settled.nanos / 1000 * 1000
    omega

/-- What is kept has a stamp, is settled, and is kept by it. -/
theorem hasStamp_stamped (t : Instant) :
    t.stamped.HasStamp ∧ t.stamped.OnMinute ∧ t.stamped.truncMicros = t.stamped := by
  unfold stamped
  split
  · exact ⟨hasStamp_iff.mpr (by decide), by decide, rfl⟩
  · split
    · exact ⟨hasStamp_iff.mpr (by decide), by decide, rfl⟩
    · next hlo hhi =>
        have hstamp : t.HasStamp := ⟨Int.not_lt.mp hlo, Int.not_lt.mp hhi⟩
        exact ⟨hasStamp_truncMicros.mpr (hasStamp_settled.mpr hstamp),
          onMinute_truncMicros.mpr t.onMinute_settled, truncMicros_truncMicros t.settled⟩

end Instant

namespace Stamp

open Text Rfc3339 Calendar

/-! ## The characters of a stamp -/

/-- Months and days of instants are written with two digits. -/
theorem date_bounds (t : Instant) :
    1 ≤ (fields t).date.month ∧ (fields t).date.month ≤ 12 ∧ 1 ≤ (fields t).date.day ∧
      (fields t).date.day ≤ 31 :=
  ofDay_bounds _

/-- The characters of the stamp of an instant that has one. -/
def chars (t : Instant) : List Char :=
  civilText (fields t) ++ '.' :: padded 6 ((fields t).nanos / 1000) ++ ['Z']

theorem ofInstant_of_hasStamp {t : Instant} (h : t.HasStamp) :
    ofInstant t = String.ofList (chars t) := by
  rw [ofInstant, if_neg (Int.not_lt.mpr h.1), if_neg (Int.not_lt.mpr h.2), chars]

theorem yearText_of_hasStamp {t : Instant} (h : t.HasStamp) :
    yearText (fields t).date.year = padded 4 (fields t).date.year.toNat := by
  obtain ⟨hlo, hhi⟩ := h
  rw [yearText, if_pos]
  rw [Bool.and_eq_true, decide_eq_true_eq, decide_eq_true_eq]
  omega

/-- The parts of an instant without what is below a microsecond. -/
theorem fields_truncMicros (t : Instant) :
    fields t.truncMicros = { fields t with nanos := (fields t).nanos / 1000 * 1000 } := by
  have hsecond : t.nanos / 1000 * 1000 / 10 ^ 9 = t.nanos / 10 ^ 9 := by omega
  have hnanos : t.nanos / 1000 * 1000 % 10 ^ 9 = t.nanos % 10 ^ 9 / 1000 * 1000 := by omega
  simp only [fields, Instant.truncMicros, hsecond, hnanos]

theorem chars_truncMicros (t : Instant) : chars t.truncMicros = chars t := by
  have hnanos : (fields t).nanos / 1000 * 1000 / 1000 = (fields t).nanos / 1000 := by omega
  rw [chars, chars, fields_truncMicros]
  simp only [hnanos]
  rfl

/-- Stamps have one width. -/
theorem length_chars {t : Instant} (h : t.HasStamp) : (chars t).length = 27 := by
  simp only [chars, civilText, yearText_of_hasStamp h, List.length_append, List.length_cons,
    List.length_nil, length_padded]

/-- An instant and the settled one have one stamp. -/
theorem ofInstant_settled (t : Instant) : ofInstant t.settled = ofInstant t := by
  simp only [ofInstant, fields_settled]

/-- An instant and what is kept of it have one stamp. -/
theorem ofInstant_stamped (t : Instant) : ofInstant t.stamped = ofInstant t := by
  by_cases hlo : (fields t).date.year < 1
  · rw [Instant.stamped, ofInstant, ofInstant, if_pos hlo, if_pos hlo]
    rfl
  · by_cases hhi : 9999 < (fields t).date.year
    · rw [Instant.stamped, ofInstant, ofInstant, if_neg hlo, if_pos hhi, if_neg hlo, if_pos hhi]
      rfl
    · have h : t.HasStamp := ⟨Int.not_lt.mp hlo, Int.not_lt.mp hhi⟩
      have hsettled := Instant.hasStamp_settled.mpr h
      rw [Instant.stamped_of_hasStamp h, ← ofInstant_settled t,
        ofInstant_of_hasStamp (Instant.hasStamp_truncMicros.mpr hsettled), chars_truncMicros,
        ofInstant_of_hasStamp hsettled]

/-! ## Reading back -/

theorem length_le_byteCount (cs : List Char) : cs.length ≤ byteCount cs := by
  induction cs with
  | nil => exact Nat.le_refl 0
  | cons c cs ih =>
      have hpos := c.utf8Size_pos
      rw [List.length_cons, byteCount_cons]
      omega

theorem fixed_padded {width n : Nat} (hn : n < 10 ^ width) (rest : List Char) :
    fixed width (padded width n ++ rest) = .ok (n, rest) := by
  have hlen := length_padded width n
  have htake : (padded width n ++ rest).take width = padded width n := List.take_left' hlen
  have hdrop : (padded width n ++ rest).drop width = rest := List.drop_left' hlen
  have hall : (padded width n).all isDigit = true :=
    List.all_eq_true.mpr fun _ => isDigit_of_mem_padded
  rw [fixed, htake, hdrop]
  simp only [hlen, hall, decide_true, Bool.and_self, if_true, value_padded,
    Nat.mod_eq_of_lt hn]

theorem oneOf_cons {allowed : List Char} {c : Char} (cs : List Char)
    (h : allowed.contains c = true) : oneOf allowed (c :: cs) = .ok ((), cs) := by
  rw [oneOf, if_pos h]

/-- A date of the calendar is read after a year of four digits. -/
theorem strictDate_padded {d : Date} (hvalid : d.isValid = true) (hlo : 0 ≤ d.year)
    (hhi : d.year ≤ 9999) (hmonth : d.month ≤ 12) (hday : d.day ≤ 31) (rest : List Char) :
    strictDate (padded 4 d.year.toNat ++
      '-' :: (padded 2 d.month ++ '-' :: (padded 2 d.day ++ rest))) = .ok (d, rest) := by
  have hyear : (⟨(d.year.toNat : Nat), d.month, d.day⟩ : Date) = d := by
    rw [Int.toNat_of_nonneg hlo]
  have hmark (cs : List Char) : oneOf ['-'] ('-' :: cs) = .ok ((), cs) := oneOf_cons _ (by decide)
  rw [strictDate]
  simp only [fixed_padded (show d.year.toNat < 10 ^ 4 by omega),
    fixed_padded (show d.month < 10 ^ 2 by omega), fixed_padded (show d.day < 10 ^ 2 by omega),
    hmark, ok_bind, hyear, hvalid, if_true]

/-- A time of the day is read, with the digits of its second. -/
theorem strictTime_padded {f : Fields} (hhour : f.hour ≤ 23) (hminute : f.minute ≤ 59)
    (hsecond : f.second ≤ 60) {cs rest : List Char}
    (hnanos : optionalFraction cs = .ok (f.nanos, rest)) :
    strictTime f.date (padded 2 f.hour ++ ':' :: (padded 2 f.minute ++
      ':' :: (padded 2 f.second ++ cs))) = .ok (f, rest) := by
  have hmark (cs : List Char) : oneOf [':'] (':' :: cs) = .ok ((), cs) := oneOf_cons _ (by decide)
  rw [strictTime]
  simp only [fixed_padded (show f.hour < 10 ^ 2 by omega),
    fixed_padded (show f.minute < 10 ^ 2 by omega),
    fixed_padded (show f.second < 10 ^ 2 by omega), hmark, ok_bind, hnanos, hhour, hminute,
    hsecond, decide_true, Bool.and_self, if_true]

/-- The stamp of an instant that has one is read as the settled instant without what is below
a microsecond. -/
theorem parse_of_hasStamp {t : Instant} (h : t.HasStamp) :
    parse (ofInstant t) = .ok t.settled.truncMicros := by
  obtain ⟨hhour, hminute, hsecond, hnanos⟩ := clock_bounds t
  obtain ⟨-, hmonth, -, hday⟩ := date_bounds t
  have hlen : ¬ byteCount (chars t) < 19 := by
    have hle := length_le_byteCount (chars t)
    rw [length_chars h] at hle
    omega
  have hdate := strictDate_padded (d := (fields t).date) (isValid_ofDay _)
    (Int.le_of_lt h.1) h.2 hmonth hday
  have hmicros : optionalFraction ('.' :: padded 6 ((fields t).nanos / 1000) ++ ['Z']) =
      .ok ((fields t).nanos / 1000 * 1000, ['Z']) :=
    optionalFraction_padded (by decide) (by decide) (by omega)
  have htime := strictTime_padded (f := { fields t with nanos := (fields t).nanos / 1000 * 1000 })
    hhour hminute hsecond hmicros
  have hT (cs : List Char) : oneOf ['T', 't', ' '] ('T' :: cs) = .ok ((), cs) := rfl
  rw [ofInstant_of_hasStamp h, parse, parseStrict, String.toList_ofList]
  simp only [hlen, if_false]
  rw [chars, civilText, yearText_of_hasStamp h]
  simp only [List.append_assoc, List.cons_append] at htime ⊢
  simp only [hdate, ok_bind, hT, htime]
  rw [← fields_truncMicros, ← Instant.settled_truncMicros]
  exact toInstant_fields t.truncMicros

/-- A stamp is read as what it keeps of its instant. -/
theorem parse_ofInstant (t : Instant) : parse (ofInstant t) = .ok t.stamped := by
  obtain ⟨hstamp, hon, htrunc⟩ := t.hasStamp_stamped
  rw [← ofInstant_stamped, parse_of_hasStamp hstamp, Instant.settled_of_onMinute hon, htrunc]

/-- Stamps are the same exactly if they keep the same. -/
theorem ofInstant_inj {a b : Instant} : ofInstant a = ofInstant b ↔ a.stamped = b.stamped := by
  constructor
  · intro h
    have hparse := parse_ofInstant a
    rw [h, parse_ofInstant] at hparse
    exact (Except.ok.inj hparse).symm
  · intro h
    rw [← ofInstant_stamped a, h, ofInstant_stamped]

/-! ## Order -/

/-- Numbers of one width before the same mark decide, and then what follows it. -/
theorem field_lt {width m n : Nat} (hm : m < 10 ^ width) (hn : n < 10 ^ width) (mark : Char)
    (cs ds : List Char) : padded width m ++ mark :: cs < padded width n ++ mark :: ds ↔
      m < n ∨ m = n ∧ cs < ds := by
  rw [padded_append_lt hm hn, List.cons_lt_cons_iff]
  simp

/-- A later day has a later year, month or day. -/
theorem date_lt {a b : Instant} (h : a.secs / 86400 < b.secs / 86400) :
    (fields a).date.year < (fields b).date.year ∨
      (fields a).date.year = (fields b).date.year ∧
        ((fields a).date.month < (fields b).date.month ∨
          (fields a).date.month = (fields b).date.month ∧
            (fields a).date.day < (fields b).date.day) :=
  ofDay_lt h

/-- A later time of a day has a later hour, minute, second or microsecond, where leap seconds
end minutes. -/
theorem clock_lt {a b : Instant} (haleap : a.OnMinute) (hbleap : b.OnMinute)
    (hday : a.secs / 86400 = b.secs / 86400) (h : a.truncMicros < b.truncMicros) :
    (fields a).hour < (fields b).hour ∨ (fields a).hour = (fields b).hour ∧
      ((fields a).minute < (fields b).minute ∨ (fields a).minute = (fields b).minute ∧
        ((fields a).second < (fields b).second ∨ (fields a).second = (fields b).second ∧
          (fields a).nanos / 1000 < (fields b).nanos / 1000)) := by
  have ha := a.valid.2.2
  have hb := b.valid.2.2
  rw [Instant.OnMinute] at haleap hbleap
  rw [Instant.lt_iff] at h
  have hmicros : a.secs < b.secs ∨ a.secs = b.secs ∧ a.nanos / 1000 < b.nanos / 1000 := by
    simp only [Instant.truncMicros] at h
    omega
  simp only [fields]
  -- a leap second counts as the second after the last one of its minute
  have hnext : a.secs < b.secs → (a.secs % 86400).toNat < (b.secs % 86400).toNat := by omega
  rcases hmicros with hlt | ⟨heq, hlt⟩
  · have hclock := hnext hlt
    omega
  · rw [heq]
    omega

/-- A later instant has a later stamp. -/
theorem chars_lt {a b : Instant} (ha : a.HasStamp) (hb : b.HasStamp) (haleap : a.OnMinute)
    (hbleap : b.OnMinute) (h : a.truncMicros < b.truncMicros) : chars a < chars b := by
  obtain ⟨hahour, haminute, hasecond, hananos⟩ := clock_bounds a
  obtain ⟨hbhour, hbminute, hbsecond, hbnanos⟩ := clock_bounds b
  obtain ⟨-, hamonth, -, haday⟩ := date_bounds a
  obtain ⟨-, hbmonth, -, hbday⟩ := date_bounds b
  obtain ⟨haylo, hayhi⟩ := id ha
  obtain ⟨hbylo, hbyhi⟩ := id hb
  rw [chars, chars, civilText, civilText, yearText_of_hasStamp ha, yearText_of_hasStamp hb]
  simp only [List.append_assoc, List.cons_append]
  rw [field_lt (by omega) (by omega), field_lt (by omega) (by omega),
    field_lt (by omega) (by omega), field_lt (by omega) (by omega), field_lt (by omega) (by omega),
    field_lt (by omega) (by omega), field_lt (by omega) (by omega)]
  rcases Int.lt_trichotomy (a.secs / 86400) (b.secs / 86400) with hlt | heq | hgt
  · have hdate := date_lt hlt
    omega
  · have hclock := clock_lt haleap hbleap heq h
    have hdate : (fields a).date = (fields b).date := congrArg Date.ofDay heq
    rw [hdate]
    omega
  · rw [Instant.lt_iff] at h
    simp only [Instant.truncMicros] at h
    omega

/-- Stamps are in the order of what they keep. -/
theorem ofInstant_lt_iff {a b : Instant} : ofInstant a < ofInstant b ↔ a.stamped < b.stamped := by
  have hlt {a b : Instant} (h : a.stamped < b.stamped) : ofInstant a < ofInstant b := by
    obtain ⟨ha, haleap, hatrunc⟩ := a.hasStamp_stamped
    obtain ⟨hb, hbleap, hbtrunc⟩ := b.hasStamp_stamped
    rw [← ofInstant_stamped a, ← ofInstant_stamped b, ofInstant_of_hasStamp ha,
      ofInstant_of_hasStamp hb, String.lt_iff, String.toList_ofList, String.toList_ofList]
    exact chars_lt ha hb haleap hbleap (by rwa [hatrunc, hbtrunc])
  refine ⟨fun h => ?_, hlt⟩
  rcases Instant.lt_trichotomy a.stamped b.stamped with hab | heq | hba
  · exact hab
  · rw [ofInstant_inj.mpr heq] at h
    exact absurd h (String.lt_irrefl _)
  · exact absurd (hlt hba) (String.lt_asymm h)

end Stamp

end JobQueue
