import JobQueue.Proofs.Instants
import JobQueue.Task.Basic

/-!
# JobQueue.Proofs.Validity

Which tasks have usable settings.

- A check goes well exactly if the setting is within its bounds, and one check after another if
  both do.
- So a task passes the checks exactly if every setting is usable (`Task.validate_eq_ok_iff`), as
  the usual settings are (`Task.usable_new`).
-/

namespace JobQueue

/-! ## Checks -/

/-- One check after another goes well if both do. -/
theorem seq_eq_ok_iff {ε α : Type} {x : Except ε Unit} {y : Except ε α} {a : α} :
    (x >>= fun _ => y) = .ok a ↔ x = .ok () ∧ y = .ok a := by
  cases x with
  | error e => exact ⟨nofun, nofun⟩
  | ok u => exact ⟨fun h => ⟨rfl, h⟩, And.right⟩

/-- A fault that is ruled out leaves what is checked next. -/
theorem ite_error_eq_ok_iff {ε α : Type} {p : Prop} [Decidable p] {e : ε} {x : Except ε α}
    {a : α} : (if p then .error e else x) = .ok a ↔ ¬ p ∧ x = .ok a := by
  by_cases hp : p
  · rw [if_pos hp]
    exact ⟨nofun, fun h => absurd hp h.1⟩
  · rw [if_neg hp, and_iff_right hp]

/-! ## Backoffs -/

/-- The delays of a backoff are positive and do not shrink. -/
structure Backoff.Usable (b : Backoff) : Prop where
  min : b.min.isZero = false
  max : b.min ≤ b.max
  finite : b.factor.isFinite
  factor : ¬ b.factor < 1

/-- The usual backoff is usable. -/
theorem Backoff.usable_standard : Backoff.standard.Usable where
  min := by decide
  max := by decide
  finite := by decide +kernel
  factor := by decide +kernel

theorem Duration.not_lt {a b : Duration} : ¬ a < b ↔ b ≤ a := Nat.not_lt

namespace Task

variable {t : Task}

theorem checkBackoff_eq_ok_iff : t.checkBackoff = .ok () ↔ t.backoff.Usable := by
  rw [checkBackoff, ite_error_eq_ok_iff, ite_error_eq_ok_iff, ite_error_eq_ok_iff,
    Duration.not_lt, Bool.not_eq_true, Bool.or_eq_true, not_or, Bool.not_eq_true',
    Bool.not_eq_false, decide_eq_true_eq]
  exact ⟨fun ⟨hmin, hmax, ⟨hfinite, hfactor⟩, _⟩ => ⟨hmin, hmax, hfinite, hfactor⟩,
    fun h => ⟨h.min, h.max, ⟨h.finite, h.factor⟩, rfl⟩⟩

/-! ## Tasks -/

theorem checkNonZero_eq_ok_iff {field : String} {d : Duration} :
    t.checkNonZero field d = .ok () ↔ d.isZero = false := by
  rw [checkNonZero, ite_error_eq_ok_iff, and_iff_left rfl, Bool.not_eq_true]

theorem checkPositive_eq_ok_iff {field : String} {n : Nat} :
    t.checkPositive field n = .ok () ↔ n ≠ 0 := by
  rw [checkPositive, ite_error_eq_ok_iff, and_iff_left rfl]

/-- A periodic job comes back after some time, with a payload of its task. -/
structure Repeats (t : Task) (p : Periodic) : Prop where
  every : p.every.isZero = false
  payload : t.checkPayload p.blueprint.data = .ok ()

theorem checkPeriodic_eq_ok_iff :
    t.checkPeriodic = .ok () ↔ ∀ p, t.periodic = some p → t.Repeats p := by
  rw [checkPeriodic]
  cases t.periodic with
  | none => exact ⟨fun _ => nofun, fun _ => rfl⟩
  | some p =>
      rw [seq_eq_ok_iff, checkNonZero_eq_ok_iff]
      cases hpayload : t.checkPayload p.blueprint.data with
      | error e =>
          refine ⟨nofun, fun h => ?_⟩
          cases hpayload.symm.trans (h p rfl).payload
      | ok u => exact ⟨fun h q hq => Option.some.inj hq ▸ ⟨h.1, hpayload⟩,
          fun h => ⟨(h p rfl).every, rfl⟩⟩

/-- Every setting of a task is usable. -/
structure Usable (t : Task) : Prop where
  name : t.name.isEmpty = false
  workers : t.workers ≠ 0
  maxAttempts : t.maxAttempts.toNat ≠ 0
  lifetime : t.lifetime.isZero = false
  pollInterval : t.pollInterval.isZero = false
  backoff : t.backoff.Usable
  periodic : ∀ p, t.periodic = some p → t.Repeats p

/-- The checks go well exactly if every setting is usable. -/
theorem validate_eq_ok_iff : t.validate = .ok () ↔ t.Usable := by
  rw [validate]
  split
  · next hempty =>
      refine ⟨nofun, fun h => ?_⟩
      cases h.name.symm.trans hempty
  · next hname =>
      rw [seq_eq_ok_iff, seq_eq_ok_iff, seq_eq_ok_iff, seq_eq_ok_iff, seq_eq_ok_iff,
        checkPositive_eq_ok_iff, checkPositive_eq_ok_iff, checkNonZero_eq_ok_iff,
        checkNonZero_eq_ok_iff, checkBackoff_eq_ok_iff, checkPeriodic_eq_ok_iff]
      exact ⟨fun ⟨hworkers, hattempts, hlifetime, hpoll, hbackoff, hperiodic⟩ =>
          ⟨Bool.eq_false_iff.mpr hname, hworkers, hattempts, hlifetime, hpoll, hbackoff,
            hperiodic⟩,
        fun h => ⟨h.workers, h.maxAttempts, h.lifetime, h.pollInterval, h.backoff, h.periodic⟩⟩

/-- The usual settings are usable under every name. -/
theorem usable_new {α β : Type} {name : String} (hname : name.isEmpty = false)
    (payload : Format α) (result : Format β) (handler : Handler α β) :
    (Task.new name payload result handler).Usable where
  name := hname
  workers := Nat.succ_ne_zero 1
  maxAttempts := Nat.succ_ne_zero 2
  lifetime := rfl
  pollInterval := rfl
  backoff := Backoff.usable_standard
  periodic := nofun

end Task

end JobQueue
