import JobQueue.Proofs.Draining
import JobQueue.Proofs.Windows

/-!
# JobQueue.Proofs.Cutoffs

Instants that are kept, and lengths of time before the present.

- An instant is older than a length of time (`Instant.IsOlder`) if that much before the
  present has a stamp, and the instant comes before what is kept of it. Columns are compared
  with cutoffs for just that (`before_iff_isOlder`), so nothing is older than what begins
  before the first stamp, or before the calendar.
- What is kept of an instant is not older than a length of time that has not passed since
  (`not_isOlder`), and is older one microsecond after it has passed (`isOlder_of_le`).
-/

namespace JobQueue

/-! ## Ages -/

/-- A length of time before the present there is an instant with a stamp, and this one comes
before what the stamp keeps of that. -/
def Instant.IsOlder (t now : Instant) (d : Duration) : Prop :=
  ∃ u ∈ ofNanos? (now.toNanos - d.nanos), u.HasStamp ∧ t < u.truncMicros

/-- The column has an instant, which is older than a length of time. -/
def Column.IsOlder (c : Column) (now : Instant) (d : Duration) : Prop :=
  ∃ t ∈ c.instant?, t.IsOlder now d

instance (t : Instant) : Decidable t.HasStamp := decidable_of_iff _ Instant.hasStamp_iff.symm

instance (t now : Instant) (d : Duration) : Decidable (t.IsOlder now d) :=
  inferInstanceAs (Decidable (∃ u ∈ Instant.ofNanos? (now.toNanos - d.nanos),
    u.HasStamp ∧ t < u.truncMicros))

instance (c : Column) (now : Instant) (d : Duration) : Decidable (c.IsOlder now d) :=
  inferInstanceAs (Decidable (∃ t ∈ c.instant?, t.IsOlder now d))

namespace Instant

theorem firstStamped_le_stamped (t : Instant) : firstStamped ≤ t.stamped := by
  obtain ⟨hlo, -⟩ := hasStamp_iff.mp t.hasStamp_stamped.1
  have hfirst : firstStamped.secs = -62135596800 ∧ firstStamped.nanos = 0 := ⟨rfl, rfl⟩
  rw [le_iff]
  omega

variable {t now : Instant} {d : Duration}

/-- What begins a length of time before the present is kept as it is, or else as the first
stamp. -/
theorem stamped_before_cases (hstamp : now.HasStamp) (hleap : now.isLeap = false) (d : Duration) :
    (∃ u ∈ ofNanos? (now.toNanos - d.nanos), u.HasStamp ∧
      (now.before d).stamped = u.truncMicros) ∨
    (∀ u ∈ ofNanos? (now.toNanos - d.nanos), ¬ u.HasStamp) ∧
      (now.before d).stamped = firstStamped := by
  rw [before, before?_of_not_isLeap hleap]
  cases hbegin : ofNanos? (now.toNanos - d.nanos) with
  | none => exact .inr ⟨fun u hu => absurd hu (Option.not_mem_none u), rfl⟩
  | some u =>
      rw [Option.getD_some]
      obtain ⟨hcount, huleap⟩ := toNanos_of_ofNanos? hbegin
      by_cases hu : u.HasStamp
      · exact .inl ⟨u, rfl, hu, stamped_of_not_isLeap hu huleap⟩
      · refine .inr ⟨fun v hv => Option.some.inj hv ▸ hu, ?_⟩
        have hunanos := nanos_lt_of_not_isLeap huleap
        have hnow := nanos_lt_of_not_isLeap hleap
        rw [hasStamp_iff] at hstamp hu
        rw [toNanos, toNanos] at hcount
        rw [stamped_eq, if_pos (by omega)]

/-- What is kept of an instant is older than a length of time exactly if it comes before
what is kept of the beginning of that. -/
theorem lt_stamped_before_iff (hstamp : now.HasStamp) (hleap : now.isLeap = false) :
    t.stamped < (now.before d).stamped ↔ t.stamped.IsOlder now d := by
  rcases stamped_before_cases hstamp hleap d with ⟨u, hu, hustamp, heq⟩ | ⟨hnone, heq⟩
  · rw [heq]
    refine ⟨fun hlt => ⟨u, hu, hustamp, hlt⟩, ?_⟩
    rintro ⟨v, hv, -, hlt⟩
    rwa [Option.mem_unique hu hv]
  · rw [heq]
    refine ⟨fun hlt => absurd hlt (not_lt.mpr (firstStamped_le_stamped t)), ?_⟩
    rintro ⟨u, hu, hustamp, -⟩
    exact absurd hustamp (hnone u hu)

/-- What is kept of an instant is not older than a length of time that has not passed. -/
theorem not_isOlder {f : Instant} (hf : f.HasStamp) (hfleap : f.isLeap = false)
    (h : now.toNanos ≤ f.toNanos + d.nanos) : ¬ f.stamped.IsOlder now d := by
  rintro ⟨u, hu, -, hlt⟩
  obtain ⟨hcount, huleap⟩ := toNanos_of_ofNanos? hu
  have hfnanos := nanos_lt_of_not_isLeap hfleap
  have hunanos := nanos_lt_of_not_isLeap huleap
  have hfcount : f.toNanos = f.secs * 10 ^ 9 + f.nanos := rfl
  rw [stamped_of_not_isLeap hf hfleap, lt_iff] at hlt
  simp only [truncMicros] at hlt
  rw [toNanos] at hcount
  omega

/-- What is kept of an instant is older than a length of time that has passed a microsecond
ago. -/
theorem isOlder_of_le {f : Instant} (hf : f.HasStamp) (hfleap : f.isLeap = false)
    (hstamp : now.HasStamp) (hleap : now.isLeap = false)
    (h : f.toNanos + d.nanos + 1000 ≤ now.toNanos) : f.stamped.IsOlder now d := by
  have hfnanos := nanos_lt_of_not_isLeap hfleap
  have hnow := nanos_lt_of_not_isLeap hleap
  have hfcount : f.toNanos = f.secs * 10 ^ 9 + f.nanos := rfl
  have hnowcount : now.toNanos = now.secs * 10 ^ 9 + now.nanos := rfl
  rw [hasStamp_iff] at hstamp
  obtain ⟨hflo, hfhi⟩ := hasStamp_iff.mp hf
  obtain ⟨u, hu, hcount, huleap⟩ :=
    exists_ofNanos? (n := now.toNanos - d.nanos) (by omega) (by omega)
  have hunanos := nanos_lt_of_not_isLeap huleap
  rw [toNanos] at hcount
  refine ⟨u, hu, hasStamp_iff.mpr (by omega), ?_⟩
  rw [stamped_of_not_isLeap hf hfleap, lt_iff]
  simp only [truncMicros]
  omega

end Instant

/-! ## Columns -/

namespace Row

variable {now : Instant} {d : Duration}

theorem not_isOlder_null : ¬ Column.null.IsOlder now d := by
  rintro ⟨t, ht, -⟩
  cases ht

theorem isOlder_ofInstant_iff {t : Instant} :
    (ofInstant t).IsOlder now d ↔ t.stamped.IsOlder now d := by
  rw [Column.IsOlder, instant?_ofInstant]
  refine ⟨?_, fun h => ⟨_, rfl, h⟩⟩
  rintro ⟨u, hu, holder⟩
  rwa [Option.some.inj hu]

/-- A column of an instant is compared with a cutoff for whether it is older. -/
theorem before_iff_isOlder {c : Column} (hc : ∃ o, c = ofInstant? o) (hstamp : now.HasStamp)
    (hleap : now.isLeap = false) :
    c.before (Stamp.ofInstant (now.before d)) ↔ c.IsOlder now d := by
  obtain ⟨_ | t, rfl⟩ := hc
  · exact ⟨(nomatch ·), fun h => absurd h not_isOlder_null⟩
  · have hcolumn : ofInstant? (some t) = ofInstant t := rfl
    rw [hcolumn, isOlder_ofInstant_iff, ofInstant, Column.before_text, decide_eq_true_eq,
      Stamp.ofInstant_lt_iff, Instant.lt_stamped_before_iff hstamp hleap]

end Row

end JobQueue
