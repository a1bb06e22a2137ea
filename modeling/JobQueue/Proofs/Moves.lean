import JobQueue.Proofs.Stamps
import JobQueue.Supply

/-!
# JobQueue.Proofs.Moves

Moving in time by a length of time.

- Outside leap seconds, instants are ordered as counts of nanoseconds (`le_iff_toNanos`).
- A move goes through a span, which has a limit, and through the time of day and the date,
  which carry and have limits as well. None of these is met before the calendar ends
  (`on?_carry`), so that a move is one of the count (`add?_of_not_isLeap`).
- So sums and differences are exact and end with the calendar, differences undo sums, and both
  keep the order (`moves_exact`).
-/

namespace JobQueue

/-! ## Spans -/

namespace Span

/-- A length of time is a span, or it is longer than all of them. -/
theorem ofDuration?_cases (d : Duration) :
    (∃ s, ofDuration? d = some s ∧ s.nanos = d.nanos) ∨
      ofDuration? d = none ∧ (2 ^ 63 - 1) * 10 ^ 6 < d.nanos := by
  rw [ofDuration?]
  split
  · exact .inl ⟨_, rfl, rfl⟩
  · next h => exact .inr ⟨rfl, Nat.lt_of_not_le h⟩

theorem secs_of_ofSecs? {n : Int} {s : Span} (h : ofSecs? n = some s) : s.secs = n := by
  rw [ofSecs?] at h
  split at h
  · obtain rfl := Option.some.inj h
    exact Int.mul_tdiv_cancel _ (by decide)
  · cases h

/-- Seconds that are no span are more than the calendar has. -/
theorem of_ofSecs?_eq_none {n : Int} (h : ofSecs? n = none) :
    n < -(2 ^ 53) ∨ 2 ^ 53 < n := by
  rw [ofSecs?] at h
  split at h
  · cases h
  · omega

/-- The parts of a span make it up, and have its sign. -/
theorem parts (s : Span) : s.secs * 10 ^ 9 + s.subsec = s.nanos ∧
    (0 ≤ s.nanos → 0 ≤ s.secs ∧ 0 ≤ s.subsec ∧ s.subsec < 10 ^ 9) ∧
    (s.nanos ≤ 0 → s.secs ≤ 0 ∧ s.subsec ≤ 0 ∧ -10 ^ 9 < s.subsec) := by
  refine ⟨Int.tdiv_mul_add_tmod _ _, fun h => ?_, fun h => ?_⟩
  · rw [secs, subsec, Int.tdiv_eq_ediv_of_nonneg h, Int.tmod_eq_emod_of_nonneg h]
    omega
  · obtain ⟨n, hn⟩ : ∃ n, s.nanos = -n := ⟨-s.nanos, by omega⟩
    have hpos : 0 ≤ n := by omega
    rw [secs, subsec, hn, Int.neg_tdiv, Int.neg_tmod, Int.tdiv_eq_ediv_of_nonneg hpos,
      Int.tmod_eq_emod_of_nonneg hpos]
    omega

end Span

namespace Instant

/-! ## Counts of nanoseconds -/

theorem nanos_lt_of_not_isLeap {t : Instant} (h : t.isLeap = false) : t.nanos < 10 ^ 9 := by
  rw [isLeap, decide_eq_false_iff_not] at h
  omega

/-- Outside leap seconds, the order is that of the counts. -/
theorem le_iff_toNanos {a b : Instant} (ha : a.isLeap = false) (hb : b.isLeap = false) :
    a ≤ b ↔ a.toNanos ≤ b.toNanos := by
  have hna := nanos_lt_of_not_isLeap ha
  have hnb := nanos_lt_of_not_isLeap hb
  rw [le_iff, toNanos, toNanos]
  omega

/-- A count within the calendar is that of an instant. -/
theorem exists_ofNanos? {n : Int} (hlo : -8334601228800 * 10 ^ 9 ≤ n)
    (hhi : n < 8210266876800 * 10 ^ 9) :
    ∃ t, ofNanos? n = some t ∧ t.toNanos = n ∧ t.isLeap = false := by
  have hvalid : Valid (n / 10 ^ 9) (n % 10 ^ 9).toNat := by
    exact ⟨by omega, by omega, by omega⟩
  refine ⟨⟨n / 10 ^ 9, (n % 10 ^ 9).toNat, hvalid⟩, ?_, ?_, ?_⟩
  · rw [ofNanos?, of?, dif_pos hvalid]
  · rw [toNanos]
    dsimp only
    omega
  · rw [isLeap, decide_eq_false_iff_not]
    dsimp only
    omega

/-- The instant at a count has that count. -/
theorem toNanos_of_ofNanos? {n : Int} {t : Instant} (h : ofNanos? n = some t) :
    t.toNanos = n ∧ t.isLeap = false := by
  rw [ofNanos?, of?] at h
  split at h
  · obtain rfl := Option.some.inj h
    rw [toNanos, isLeap, decide_eq_false_iff_not]
    dsimp only
    omega
  · cases h

/-- No count outside the calendar is that of an instant. -/
theorem ofNanos?_eq_none {n : Int}
    (h : n < -8334601228800 * 10 ^ 9 ∨ 8210266876800 * 10 ^ 9 ≤ n) : ofNanos? n = none := by
  rw [ofNanos?, of?, dif_neg]
  rintro ⟨hlo, hhi, -⟩
  omega

theorem toNanos_bounds {t : Instant} (h : t.isLeap = false) :
    -8334601228800 * 10 ^ 9 ≤ t.toNanos ∧ t.toNanos < 8210266876800 * 10 ^ 9 := by
  obtain ⟨hlo, hhi, -⟩ := t.valid
  have hnanos := nanos_lt_of_not_isLeap h
  rw [toNanos]
  omega

/-- The instant at the count of an instant outside leap seconds is that one. -/
theorem ofNanos?_toNanos {t : Instant} (h : t.isLeap = false) : ofNanos? t.toNanos = some t := by
  have hnanos := nanos_lt_of_not_isLeap h
  have hsecs : t.toNanos / 10 ^ 9 = t.secs := by
    rw [toNanos]
    omega
  have hrest : (t.toNanos % 10 ^ 9).toNat = t.nanos := by
    rw [toNanos]
    omega
  rw [ofNanos?, hsecs, hrest, of?, dif_pos t.valid]

theorem ofNanos?_eq_some_iff {n : Int} {t : Instant} :
    ofNanos? n = some t ↔ t.isLeap = false ∧ t.toNanos = n :=
  ⟨fun h => (toNanos_of_ofNanos? h).symm, fun ⟨hleap, hn⟩ => hn ▸ ofNanos?_toNanos hleap⟩

theorem ofNanos?_eq_none_iff {n : Int} :
    ofNanos? n = none ↔ n < earliest.toNanos ∨ latest.toNanos < n := by
  have hearliest : earliest.toNanos = -8334601228800 * 10 ^ 9 := rfl
  have hlatest : latest.toNanos = 8210266876800 * 10 ^ 9 - 1 := rfl
  refine ⟨fun h => ?_, fun h => ofNanos?_eq_none (by omega)⟩
  by_cases hin : n < earliest.toNanos ∨ latest.toNanos < n
  · exact hin
  · obtain ⟨t, ht, -⟩ := exists_ofNanos? (n := n) (by omega) (by omega)
    cases h.symm.trans ht

/-! ## Carries -/

/-- A carry leaves the sum as it is, and whole days to the date. -/
theorem carry_spec (secs : Int) {nanos : Int} (hlo : -10 ^ 9 ≤ nanos) (hhi : nanos < 2 * 10 ^ 9) :
    let l := Landing.carry secs nanos
    (0 ≤ l.second ∧ l.second < 86400) ∧ (0 ≤ l.nanos ∧ l.nanos < 10 ^ 9) ∧
      l.carried % 86400 = 0 ∧ (l.carried + l.second) * 10 ^ 9 + l.nanos = secs * 10 ^ 9 + nanos := by
  rw [Landing.carry]
  split
  · simp only [Landing.ofSecs]
    omega
  · split <;> simp only [Landing.ofSecs] <;> omega

/-- A carry to the date leads to the instant at the count. A limit of spans or of days is met
only outside the calendar. -/
theorem on?_carry {day secs nanos : Int} (hday : -96465292 ≤ day ∧ day ≤ 95026236)
    (hlo : -10 ^ 9 ≤ nanos) (hhi : nanos < 2 * 10 ^ 9) :
    (Landing.carry secs nanos).on? day = ofNanos? ((day * 86400 + secs) * 10 ^ 9 + nanos) := by
  obtain ⟨hsecond, hnanos, hcarried, hsum⟩ := carry_spec secs hlo hhi
  generalize Landing.carry secs nanos = l at *
  -- the limits of spans and days are years beyond those of the calendar
  have hfar (h : l.carried / 86400 < -2 ^ 31 ∨ 2 ^ 31 - 146097 < l.carried / 86400) :
      ofNanos? ((day * 86400 + secs) * 10 ^ 9 + nanos) = none := ofNanos?_eq_none (by omega)
  rw [Landing.on?]
  cases hspan : Span.ofSecs? l.carried with
  | none =>
      have hlong := Span.of_ofSecs?_eq_none hspan
      rw [hfar (by omega)]
      rfl
  | some s =>
      rw [Option.bind_eq_bind, Option.bind_some, Span.secs_of_ofSecs? hspan, Calendar.addDays?,
        Calendar.cycleDay]
      split
      · rw [Option.bind_eq_bind, Option.bind_some, ofNanos?]
        congr 1 <;> omega
      · rw [hfar (by omega)]
        rfl

/-- Outside leap seconds, a span is added to the count. -/
theorem add?_of_not_isLeap {t : Instant} (h : t.isLeap = false) (s : Span) :
    t.add? s = ofNanos? (t.toNanos + s.nanos) := by
  obtain ⟨hlo, hhi, -⟩ := t.valid
  have hnanos := nanos_lt_of_not_isLeap h
  obtain ⟨hparts, hforward, hbackward⟩ := s.parts
  rw [add?, landing, if_pos (by omega), on?_carry (by omega) (by omega) (by omega), toNanos]
  congr 1
  omega

/-- A landing on the same day. -/
theorem on?_same_day (second nanos day : Int) :
    (Landing.mk second nanos 0).on? day = of? (day * 86400 + second) nanos.toNat := by
  obtain ⟨s, hs⟩ : ∃ s, Span.ofSecs? 0 = some s := ⟨_, rfl⟩
  have hdays : Calendar.addDays? day 0 = some day := by
    rw [Calendar.addDays?, Calendar.cycleDay, if_pos (by omega), Int.add_zero]
  simp only [Landing.on?, hs, Option.bind_eq_bind, Option.bind_some, Span.secs_of_ofSecs? hs,
    Int.zero_ediv, hdays]

/-- A span forward that stays in a leap second keeps it. One that leaves it counts it as no
time. -/
theorem add?_of_isLeap {t : Instant} (h : t.isLeap) {s : Span} (hs : 0 ≤ s.nanos) :
    t.add? s = if t.nanos + s.nanos < 2 * 10 ^ 9 then of? t.secs (t.nanos + s.nanos).toNat
      else ofNanos? (t.toNanos - 10 ^ 9 + s.nanos) := by
  obtain ⟨hlo, hhi, hnanos⟩ := t.valid
  have hleap : 10 ^ 9 ≤ t.nanos := of_decide_eq_true h
  obtain ⟨hparts, hforward, -⟩ := s.parts
  rw [add?, landing, if_neg (by omega)]
  by_cases hstays : t.nanos + s.nanos < 2 * 10 ^ 9
  · rw [if_neg (by omega), if_neg (by omega), if_pos hstays, on?_same_day]
    congr 2 <;> omega
  · rw [if_pos (by omega), if_neg hstays, on?_carry (by omega) (by omega) (by omega), toNanos]
    congr 1
    omega

/-! ## Sums -/

/-- Outside leap seconds, a length of time is added to the count. -/
theorem after?_of_not_isLeap {t : Instant} (h : t.isLeap = false) (d : Duration) :
    t.after? d = ofNanos? (t.toNanos + d.nanos) := by
  obtain ⟨hlo, -⟩ := toNanos_bounds h
  rw [after?]
  rcases Span.ofDuration?_cases d with ⟨s, hs, hnanos⟩ | ⟨hnone, hlong⟩
  · rw [hs, Option.bind_some, add?_of_not_isLeap h, hnanos]
  · rw [hnone, ofNanos?_eq_none (by omega)]
    rfl

/-- A length of time that stays in a leap second keeps it. One that leaves it counts it as no
time. -/
theorem after?_of_isLeap {t : Instant} (h : t.isLeap) (d : Duration) :
    t.after? d = if t.nanos + d.nanos < 2 * 10 ^ 9 then of? t.secs (t.nanos + d.nanos)
      else ofNanos? (t.toNanos - 10 ^ 9 + d.nanos) := by
  obtain ⟨hlo, -, -⟩ := t.valid
  rw [after?]
  rcases Span.ofDuration?_cases d with ⟨s, hs, hnanos⟩ | ⟨hnone, hlong⟩
  · rw [hs, Option.bind_some, add?_of_isLeap h (by omega), hnanos]
    norm_cast
  · rw [hnone, if_neg (by omega), ofNanos?_eq_none (by rw [toNanos]; omega)]
    rfl

theorem toNanos_of_after? {t u : Instant} {d : Duration} (h : t.isLeap = false)
    (hu : t.after? d = some u) : u.toNanos = t.toNanos + d.nanos ∧ u.isLeap = false := by
  rw [after?_of_not_isLeap h] at hu
  exact toNanos_of_ofNanos? hu

/-- No time later it is the same instant. -/
theorem after?_zero (t : Instant) : t.after? .zero = some t := by
  have hzero : Duration.zero.nanos = 0 := rfl
  by_cases hleap : t.isLeap
  · rw [after?_of_isLeap hleap, hzero, Nat.add_zero, if_pos t.valid.2.2, of?, dif_pos t.valid]
  · rw [after?_of_not_isLeap (Bool.eq_false_iff.mpr hleap), hzero, Int.natCast_zero, Int.add_zero,
      ofNanos?_toNanos (Bool.eq_false_iff.mpr hleap)]

/-! ## Beginnings -/

/-- Outside leap seconds, a length of time is subtracted from the count. -/
theorem before?_of_not_isLeap {t : Instant} (h : t.isLeap = false) (d : Duration) :
    t.before? d = ofNanos? (t.toNanos - d.nanos) := by
  obtain ⟨-, hhi⟩ := toNanos_bounds h
  rw [before?]
  rcases Span.ofDuration?_cases d with ⟨s, hs, hnanos⟩ | ⟨hnone, hlong⟩
  · have hneg : s.neg.nanos = -s.nanos := rfl
    rw [hs, Option.bind_some, add?_of_not_isLeap h, hneg, hnanos, ← Int.sub_eq_add_neg]
  · rw [hnone, ofNanos?_eq_none (by omega)]
    rfl

/-- A length of time is subtracted from the count, unless the calendar ends. -/
theorem before_cases {t : Instant} (h : t.isLeap = false) (d : Duration) :
    (t.before d).isLeap = false ∧
      ((t.before d).toNanos = t.toNanos - d.nanos ∨
        t.before d = earliest ∧ t.toNanos - d.nanos < -8334601228800 * 10 ^ 9) := by
  have hbounds := toNanos_bounds h
  rw [before, before?_of_not_isLeap h]
  by_cases hlo : t.toNanos - d.nanos < -8334601228800 * 10 ^ 9
  · rw [ofNanos?_eq_none (.inl hlo)]
    exact ⟨rfl, .inr ⟨rfl, hlo⟩⟩
  · obtain ⟨u, hu, hcount, hleap⟩ :=
      exists_ofNanos? (n := t.toNanos - d.nanos) (by omega) (by omega)
    rw [hu]
    exact ⟨hleap, .inl hcount⟩

/-- The longer the time, and the earlier its end, the earlier its beginning. -/
theorem before_mono {a b : Instant} {d e : Duration} (ha : a.isLeap = false)
    (hb : b.isLeap = false) (hab : a ≤ b) (hde : d ≤ e) : a.before e ≤ b.before d := by
  obtain ⟨haleap, hacases⟩ := before_cases ha e
  obtain ⟨hbleap, hbcases⟩ := before_cases hb d
  obtain ⟨hblo, -⟩ := toNanos_bounds hbleap
  have hearliest : earliest.toNanos = -8334601228800 * 10 ^ 9 := rfl
  rw [le_iff_toNanos ha hb] at hab
  rw [le_iff_toNanos haleap hbleap]
  have hde : d.nanos ≤ e.nanos := hde
  rcases hacases with hacount | ⟨haearliest, halo⟩
  · rcases hbcases with hbcount | ⟨hbearliest, hblo'⟩
    · omega
    · obtain ⟨halo, -⟩ := toNanos_bounds haleap
      omega
  · rw [haearliest, hearliest]
    exact hblo

/-- A beginning is the instant at the difference, or at the first count of the calendar. -/
theorem before_eq_iff {t u : Instant} (h : t.isLeap = false) (d : Duration) :
    t.before d = u ↔
      u.isLeap = false ∧ u.toNanos = max (t.toNanos - d.nanos) earliest.toNanos := by
  have hearliest : earliest.toNanos = -8334601228800 * 10 ^ 9 := rfl
  obtain ⟨hleap, hcases⟩ := before_cases h d
  obtain ⟨hlo, -⟩ := toNanos_bounds hleap
  have hcount : (t.before d).toNanos = max (t.toNanos - d.nanos) earliest.toNanos := by
    rcases hcases with hexact | ⟨hfirst, hbelow⟩
    · omega
    · rw [hfirst]
      omega
  constructor
  · rintro rfl
    exact ⟨hleap, hcount⟩
  · rintro ⟨huleap, hu⟩
    exact Option.some.inj (by
      rw [← ofNanos?_toNanos hleap, ← ofNanos?_toNanos huleap, hcount, hu])

/-! ## Exact moves -/

/-- Outside leap seconds, a sum is the instant at the count of nanoseconds, and there is none
exactly if that is past the latest instant. A difference is the instant at the count, or the
earliest one if the count is before it. Lengths of time that no span has lead out of the calendar
either way. A difference undoes a sum. The later the instant, the later are both, and the longer
the time, the later is the sum and the earlier the difference. -/
theorem moves_exact {t : Instant} (h : t.isLeap = false) :
    (∀ d u, t.after? d = some u ↔ u.isLeap = false ∧ u.toNanos = t.toNanos + d.nanos) ∧
    (∀ d, t.after? d = none ↔ latest.toNanos < t.toNanos + d.nanos) ∧
    (∀ d u, t.before d = u ↔
      u.isLeap = false ∧ u.toNanos = max (t.toNanos - d.nanos) earliest.toNanos) ∧
    (∀ d, Span.ofDuration? d = none →
      latest.toNanos < t.toNanos + d.nanos ∧ t.toNanos - d.nanos < earliest.toNanos) ∧
    (∀ d u, t.after? d = some u → u.before d = t) ∧
    ∀ t' d d', t'.isLeap = false → t ≤ t' → d ≤ d' →
      (∀ u u', t.after? d = some u → t'.after? d' = some u' → u ≤ u') ∧
      t.before d' ≤ t'.before d := by
  have hearliest : earliest.toNanos = -8334601228800 * 10 ^ 9 := rfl
  have hlatest : latest.toNanos = 8210266876800 * 10 ^ 9 - 1 := rfl
  have hbounds := toNanos_bounds h
  refine ⟨fun d u => ?_, fun d => ?_, fun d u => before_eq_iff h d, fun d hd => ?_,
    fun d u hu => ?_, fun t' d d' h' ht hd => ⟨fun u u' hu hu' => ?_, before_mono h h' ht hd⟩⟩
  · rw [after?_of_not_isLeap h, ofNanos?_eq_some_iff]
  · rw [after?_of_not_isLeap h, ofNanos?_eq_none_iff]
    omega
  · rcases Span.ofDuration?_cases d with ⟨s, hs, -⟩ | ⟨-, hlong⟩
    · cases hd.symm.trans hs
    · omega
  · obtain ⟨hcount, hleap⟩ := toNanos_of_after? h hu
    exact (before_eq_iff hleap d).mpr ⟨h, by omega⟩
  · obtain ⟨hcount, hleap⟩ := toNanos_of_after? h hu
    obtain ⟨hcount', hleap'⟩ := toNanos_of_after? h' hu'
    have hd : d.nanos ≤ d'.nanos := hd
    rw [le_iff_toNanos h h'] at ht
    rw [le_iff_toNanos hleap hleap']
    omega

/-- The last nanosecond of the day before a leap day. -/
def eveOfLeapDay : Instant := ⟨951782399, 999999999, by decide⟩

/-- For instance a nanosecond into the leap day and back, over all of the calendar that is left,
and with the longest length of time there is. -/
theorem moves_exact_eveOfLeapDay : eveOfLeapDay.isLeap = false ∧
    (∃ u, eveOfLeapDay.after? (.clamp 1) = some u ∧ u.toNanos = 951782400 * 10 ^ 9 ∧
      u.before (.clamp 1) = eveOfLeapDay) ∧
    eveOfLeapDay.after? (.clamp (8209315094400 * 10 ^ 9)) = some latest ∧
    eveOfLeapDay.after? (.clamp (8209315094400 * 10 ^ 9 + 1)) = none ∧
    eveOfLeapDay.after? .max = none ∧ eveOfLeapDay.before .max = earliest := by
  have hleap : eveOfLeapDay.isLeap = false := by decide
  obtain ⟨hsome, hnone, hbefore, -, hback, -⟩ := moves_exact hleap
  refine ⟨hleap, ?_, ?_, ?_, ?_, ?_⟩
  · have hu : eveOfLeapDay.after? (.clamp 1) = some ⟨951782400, 0, by decide⟩ :=
      (hsome _ _).mpr (by decide)
    exact ⟨_, hu, by decide, hback _ _ hu⟩
  · exact (hsome _ _).mpr (by decide)
  · exact (hnone _).mpr (by decide)
  · exact (hnone _).mpr (by decide)
  · exact (hbefore _ _).mpr (by decide)

end Instant

end JobQueue
