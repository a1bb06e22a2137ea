import JobQueue.Proofs.Moves

/-!
# JobQueue.Proofs.Windows

Lengths of time that end at an instant, and what stamps keep of their ends.

- What is kept of a later instant is later, or the same (`stamped_mono`).
- An instant that is kept as one before a window of whole microseconds begins is at least
  the window earlier than what is kept of its end (`exists_after?_le`).
-/

namespace JobQueue.Instant

/-! ## What stamps keep -/

/-- An instant whose stamp keeps as much as that of another one is not before the whole
microseconds of that one. -/
theorem toNanos_trunc_le {a t : Instant} (ha : a.HasStamp) (haleap : a.isLeap = false)
    (ht : t.HasStamp) (htleap : t.isLeap = false) (h : a.stamped ≤ t.stamped) :
    a.toNanos / 1000 * 1000 ≤ t.toNanos := by
  have hananos := nanos_lt_of_not_isLeap haleap
  have htnanos := nanos_lt_of_not_isLeap htleap
  rw [stamped_of_not_isLeap ha haleap, stamped_of_not_isLeap ht htleap, le_iff] at h
  simp only [truncMicros] at h
  rw [toNanos, toNanos]
  omega

/-- What is kept of a later instant is later, or the same. -/
theorem stamped_mono {a b : Instant} (h : a ≤ b) (ha : a.isLeap = false) :
    a.stamped ≤ b.stamped :=
  (stamped_le_stamped_iff h).mpr
    ⟨fun hlast => absurd hlast.1.2 (Nat.not_le.mpr (nanos_lt_of_not_isLeap ha)),
      fun hout => hout.2.1 (onMinute_of_not_isLeap ha)⟩

/-- What is kept of an instant is whole microseconds. -/
theorem stamped_nanos_mod (t : Instant) : t.stamped.nanos % 1000 = 0 := by
  have htrunc : t.stamped.nanos / 1000 * 1000 = t.stamped.nanos :=
    congrArg nanos (hasStamp_stamped t).2.2
  omega

/-- A window whose beginning is kept as one after the first stamp begins where it should. -/
theorem toNanos_before_of_lt {c : Instant} {p : Duration} (hc : c.HasStamp)
    (hleap : c.isLeap = false) (h : firstStamped < (c.before p).stamped) :
    (c.before p).toNanos = c.toNanos - p.nanos ∧
      (c.before p).stamped = (c.before p).truncMicros := by
  obtain ⟨hwleap, hcases⟩ := before_cases hleap p
  have hwnanos := nanos_lt_of_not_isLeap hwleap
  have hcnanos := nanos_lt_of_not_isLeap hleap
  obtain ⟨-, hcsecs⟩ := hasStamp_iff.mp hc
  have hlo : ¬ (c.before p).secs < -62135596800 := fun hlt => by
    rw [stamped_eq, if_pos hlt] at h
    exact lt_asymm h h
  have hcount : (c.before p).toNanos = c.toNanos - p.nanos := by
    rcases hcases with hcount | ⟨hearliest, -⟩
    · exact hcount
    · rw [hearliest] at hlo
      exact absurd (by decide) hlo
  refine ⟨hcount, ?_⟩
  rw [toNanos, toNanos] at hcount
  rw [stamped_eq, if_neg hlo, if_neg (by omega),
    settled_of_onMinute (onMinute_of_not_isLeap hwleap)]

/-- A count of whole microseconds up to that of an instant is that of one up to what is kept
of it. -/
theorem exists_ofNanos?_le {n : Int} {c : Instant} (hc : c.HasStamp) (hleap : c.isLeap = false)
    (hlo : -8334601228800 * 10 ^ 9 ≤ n) (hmod : n % 1000 = 0) (hle : n ≤ c.toNanos) :
    ∃ t, ofNanos? n = some t ∧ t ≤ c.stamped := by
  have hkept : c.truncMicros.secs = c.secs ∧ c.truncMicros.nanos = c.nanos / 1000 * 1000 :=
    ⟨rfl, rfl⟩
  have hnanos := nanos_lt_of_not_isLeap hleap
  have hkeptleap : c.truncMicros.isLeap = false := by
    rw [isLeap, decide_eq_false_iff_not]
    omega
  obtain ⟨-, hhi⟩ := toNanos_bounds hleap
  obtain ⟨t, ht, hn, htleap⟩ := exists_ofNanos? hlo (by omega)
  rw [toNanos] at hle
  rw [stamped_of_not_isLeap hc hleap]
  refine ⟨t, ht, (le_iff_toNanos htleap hkeptleap).mpr ?_⟩
  rw [hn, toNanos]
  omega

/-- What was done before a window of whole microseconds began is at least the window earlier
than its end. -/
theorem exists_after?_le {f c : Instant} {p : Duration} (hp : p.nanos % 1000 = 0)
    (hc : c.HasStamp) (hleap : c.isLeap = false) (hfirst : firstStamped < f.stamped)
    (h : f.stamped ≤ (c.before p).stamped) :
    ∃ t, f.stamped.after? p = some t ∧ t ≤ c.stamped := by
  have hwfirst : firstStamped < (c.before p).stamped := by
    rw [lt_iff] at hfirst ⊢
    rw [le_iff] at h
    omega
  obtain ⟨hcount, hkept⟩ := toNanos_before_of_lt hc hleap hwfirst
  have hwnanos := nanos_lt_of_not_isLeap (before_cases hleap p).1
  have hfmicros := stamped_nanos_mod f
  rw [hkept] at h
  generalize f.stamped = a at h hfmicros ⊢
  generalize c.before p = w at h hcount hwnanos
  obtain ⟨halo, hahi, hananos⟩ := a.valid
  have hw : w.truncMicros.secs = w.secs ∧ w.truncMicros.nanos = w.nanos / 1000 * 1000 :=
    ⟨rfl, rfl⟩
  have hbegin : w.toNanos = w.secs * 10 ^ 9 + w.nanos := rfl
  have hdone : a.toNanos = a.secs * 10 ^ 9 + a.nanos := rfl
  rw [le_iff] at h
  -- a sum that leaves a leap second counts it as no time
  by_cases hain : a.isLeap
  · have hage : 10 ^ 9 ≤ a.nanos := of_decide_eq_true hain
    rw [after?_of_isLeap hain]
    split
    · next hshort =>
        have hvalid : Valid a.secs (a.nanos + p.nanos) := ⟨halo, hahi, hshort⟩
        have hcnanos := nanos_lt_of_not_isLeap hleap
        have hend : c.toNanos = c.secs * 10 ^ 9 + c.nanos := rfl
        refine ⟨⟨a.secs, a.nanos + p.nanos, hvalid⟩, by rw [of?, dif_pos hvalid], ?_⟩
        rw [stamped_of_not_isLeap hc hleap, le_iff]
        simp only [truncMicros]
        omega
    · refine exists_ofNanos?_le hc hleap ?_ ?_ ?_ <;> omega
  · have hage := nanos_lt_of_not_isLeap (Bool.eq_false_iff.mpr hain)
    rw [after?_of_not_isLeap (Bool.eq_false_iff.mpr hain)]
    refine exists_ofNanos?_le hc hleap ?_ ?_ ?_ <;> omega

end JobQueue.Instant
