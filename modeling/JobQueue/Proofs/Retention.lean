import JobQueue.Proofs.Cutoffs
import JobQueue.Proofs.Producers
import JobQueue.Proofs.Spacing

/-!
# JobQueue.Proofs.Retention

Which jobs are deleted some time after they were done.

- A cutoff deletes the rows whose instant of that is older than the retention, and the answer
  is how many (`deleteFinished_before`).
- So no job is deleted that is not done, nor one before its retention has passed
  (`deletes_expired`).
-/

namespace JobQueue

/-- The rows of a store that were not done longer ago than a length of time. -/
def Store.unexpired (s : Store) (now : Instant) (d : Duration) : Store :=
  { s with rows := s.rows.filter fun r => ¬ r.finished.IsOlder now d }

section

variable {s : Store} {now : Instant} {d : Duration}

/-- A cutoff in the past deletes what was done before it. -/
theorem deleteFinished_before (hjobs : s.schema.hasJobs) (hrows : ∀ r ∈ s.rows, r.Typed)
    (hstamp : now.HasStamp) (hleap : now.isLeap = false) (d : Duration) :
    s.deleteFinished (now.before d) =
      (.ok (s.rows.countP fun r => r.finished.IsOlder now d), s.unexpired now d) := by
  have hexpired : ∀ r ∈ s.rows, r.finished.before (Stamp.ofInstant (now.before d)) =
      decide (r.finished.IsOlder now d) := fun r hr => by
    rw [Bool.eq_iff_iff, Row.before_iff_isOlder (hrows r hr).finished hstamp hleap,
      decide_eq_true_iff]
  have hcount : s.rows.countP (fun r => r.finished.before (Stamp.ofInstant (now.before d))) =
      s.rows.countP fun r => r.finished.IsOlder now d :=
    List.countP_congr fun r hr => by rw [hexpired r hr]
  have hkept : s.rows.filter (fun r => !r.finished.before (Stamp.ofInstant (now.before d))) =
      s.rows.filter fun r => ¬ r.finished.IsOlder now d :=
    List.filter_congr fun r hr => by rw [hexpired r hr, decide_not]
  rw [Store.deleteFinished, if_pos hjobs, Store.unexpired, ← hcount, ← hkept]

theorem mem_unexpired {r : Row} (hr : r ∈ s.rows) (h : ¬ r.finished.IsOlder now d) :
    r ∈ (s.unexpired now d).rows :=
  List.mem_filter.mpr ⟨hr, decide_eq_true h⟩

end

/-- Whatever was called, the task that cleans up deletes those rows that were done longer ago
than the retention, answers with their number, and leaves the others as they are. So what waits
or is claimed stays, and so does what was done no longer ago. -/
theorem deletes_expired {cs : List Call} (hcs : AllNew cs) {s : Store}
    (hs : s = Store.empty.after cs) {now : Instant} (hstamp : now.HasStamp)
    (hleap : now.isLeap = false) (retention : Duration) (context : Context Unit) :
    s.deleteFinished (now.before retention) =
        (.ok (s.rows.countP fun r => r.finished.IsOlder now retention),
          s.unexpired now retention) ∧
      Cleanup.handler retention context now s =
        { verdict := .returned (.ofNat (s.rows.countP fun r => r.finished.IsOlder now retention))
          store := s.unexpired now retention } ∧
      (∀ r ∈ s.rows, r.status = Row.ofStatus .enqueued ∨ r.status = Row.ofStatus .dequeued →
        r ∈ (s.unexpired now retention).rows) ∧
      ∀ r ∈ s.rows, ∀ f : Instant, f.HasStamp → f.isLeap = false →
        r.finished = Row.ofInstant f → now.toNanos ≤ f.toNanos + retention.nanos →
        r ∈ (s.unexpired now retention).rows := by
  subst hs
  have hdelete := deleteFinished_before (hasJobs_after cs) (typed_after cs) hstamp hleap retention
  refine ⟨hdelete, by rw [Cleanup.handler, hdelete], fun r hr hstatus => ?_,
    fun r hr f hf hfleap hfinished hle => ?_⟩
  · obtain ⟨hrecorded, -⟩ := consistent_after hcs hr
    have hnull : r.finished = .null :=
      hstatus.elim (fun h => (hrecorded.not_done h rfl).1) fun h => (hrecorded.not_done h rfl).1
    exact mem_unexpired hr (hnull ▸ Row.not_isOlder_null)
  · refine mem_unexpired hr ?_
    rw [hfinished, Row.isOlder_ofInstant_iff]
    exact Instant.not_isOlder hf hfleap hle

/-- For instance of a job that was done two hours ago, with a retention of one hour. -/
theorem deletes_expired_sample : ∃ r,
    Store.empty.after (lifeCalls .sample .epoch (.completed .null) .epoch) = ⟨.current, [r]⟩ ∧
      r.finished = Row.ofInstant .epoch ∧
      ∀ context, Cleanup.handler (.ofSecs 3600) context .later ⟨.current, [r]⟩ =
        { verdict := .returned 1, store := ⟨.current, []⟩ } := by
  have hstamp (t : Instant) (h : 0 ≤ t.secs ∧ t.secs ≤ 7200) : t.HasStamp :=
    Instant.hasStamp_iff.mpr (by omega)
  obtain ⟨r, hfinish, hch⟩ := finish_alone .sample .epoch (.completed .null) .epoch
  have hafter := after_life sample_isNew sample_available hfinish
  have hfinished : r.finished = Row.ofInstant .epoch := hch.enters_of_finish.finished
  have holder : r.finished.IsOlder .later (.ofSecs 3600) := by
    rw [hfinished, Row.isOlder_ofInstant_iff]
    exact Instant.isOlder_of_le (hstamp _ (by decide)) rfl (hstamp _ (by decide)) rfl (by decide)
  refine ⟨r, hafter, hfinished, fun context => ?_⟩
  obtain ⟨-, hhandler, -, -⟩ := deletes_expired (allNew_life sample_isNew _ _ _) hafter.symm
    (hstamp .later (by decide)) rfl (.ofSecs 3600) context
  rw [hhandler, Store.unexpired]
  simp [holder]

end JobQueue
