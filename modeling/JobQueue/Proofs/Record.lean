import JobQueue.Proofs.Progress

/-!
# JobQueue.Proofs.Record

How the columns of a row go together. `Row.Recorded` holds of the row of a new job,
and every change keeps it, whatever its arguments:

- the start of an attempt is there exactly if there was one;
- the instant of the end is there exactly if the status is terminal;
- a claimed row has a start and no end;
- the result belongs to `completed`, the reason to `cancelled`, and a failed row
  has an error.

Hence it holds of every row there ever is (`recorded_after`).
-/

namespace JobQueue

/-- The columns of a row go together. -/
structure Row.Recorded (r : Row) : Prop where
  /-- There is a status. -/
  status : ∃ t, r.status = Row.ofStatus t
  /-- Attempts are counted from zero. -/
  attempts_nonneg : 0 ≤ r.attempts
  /-- An attempt was made exactly if there is a start of one. -/
  started_iff : 1 ≤ r.attempts ↔ r.started ≠ .null
  /-- The row is done exactly if there is an instant of that. -/
  finished_iff : r.finished ≠ .null ↔ r.isTerminal
  /-- What is done was done at the end of the last attempt. -/
  ended_eq : r.finished ≠ .null → r.ended = r.finished
  /-- A claimed row is in an attempt that has not ended. -/
  dequeued : r.hasStatus .dequeued → r.started ≠ .null ∧ r.ended = .null
  /-- A row that was never claimed has no trace of an attempt. -/
  untried : r.hasStatus .enqueued → r.attempts = 0 →
    r.started = .null ∧ r.ended = .null ∧ r.error = .null
  /-- Exactly the completed rows have a result. -/
  result_iff : r.result ≠ .null ↔ r.hasStatus .completed
  /-- Exactly the cancelled rows have a reason. -/
  reason_iff : r.reason ≠ .null ↔ r.hasStatus .cancelled
  /-- A failed row has an error. -/
  failed : r.hasStatus .failed → r.error ≠ .null

namespace Row.Recorded

variable {r : Row}

theorem result_eq_null (hr : r.Recorded) {t : Status} (h : r.status = ofStatus t)
    (ht : t ≠ .completed) : r.result = .null := by
  refine Classical.not_not.mp fun hn => ht ?_
  exact (hasStatus_of_status h _).mp (hr.result_iff.mp hn)

theorem reason_eq_null (hr : r.Recorded) {t : Status} (h : r.status = ofStatus t)
    (ht : t ≠ .cancelled) : r.reason = .null := by
  refine Classical.not_not.mp fun hn => ht ?_
  exact (hasStatus_of_status h _).mp (hr.reason_iff.mp hn)

/-- A row that is not done has nothing that belongs to the end. -/
theorem not_done (hr : r.Recorded) {t : Status} (h : r.status = ofStatus t)
    (ht : t.isTerminal = false) : r.finished = .null ∧ r.result = .null ∧ r.reason = .null := by
  refine ⟨?_, hr.result_eq_null h ?_, hr.reason_eq_null h ?_⟩
  · refine Classical.not_not.mp fun hn => ?_
    have hdone := (isTerminal_of_status h).mp (hr.finished_iff.mp hn)
    rw [ht] at hdone
    exact absurd hdone (by decide)
  · rintro rfl
    exact absurd ht (by decide)
  · rintro rfl
    exact absurd ht (by decide)

end Row.Recorded

/-- The row of a new job. -/
theorem recorded_ofJob {j : Job} (hj : j.IsNew) : (Row.ofJob j).Recorded := by
  have hstatus := Row.status_ofJob hj
  constructor
  · exact ⟨_, hstatus⟩
  · exact Int.natCast_nonneg _
  · rw [hj]
    simp [Row.ofJob, Job.new, Row.ofInstant?, Column.ofOption]
  · rw [Row.isTerminal_of_status hstatus, hj]
    simp [Row.ofJob, Job.new, Row.ofInstant?, Column.ofOption, Status.isTerminal]
  · rw [hj]
    simp [Row.ofJob, Job.new, Row.ofInstant?, Column.ofOption]
  · simp [Row.hasStatus_of_status hstatus]
  · rw [hj]
    simp [Row.ofJob, Job.new, Row.ofInstant?, Column.ofOption]
  · rw [Row.hasStatus_of_status hstatus, hj]
    simp [Row.ofJob, Job.new, Column.ofOption]
  · rw [Row.hasStatus_of_status hstatus, hj]
    simp [Row.ofJob, Job.new, Column.ofOption]
  · simp [Row.hasStatus_of_status hstatus]

namespace Row.Recorded

variable {r r' : Row}

/-- A claim fills in a start and clears the end. -/
theorem claimed (hr : r.Recorded) {name stamp : String} {now : Instant}
    (hopen : r.isClaimable name stamp) (h : r.claimed now = some r') : r'.Recorded := by
  obtain ⟨hfin, hres, hrea⟩ := hr.not_done (status_of_isClaimable hopen) rfl
  have hpos := hr.attempts_nonneg
  obtain ⟨events, -, eq⟩ := claimed_eq_some h
  have hstatus : r'.status = ofStatus .dequeued := by rw [eq]
  have hattempts : r'.attempts = r.attempts + 1 := by rw [eq]
  have hstarted : r'.started ≠ .null := by simp [eq, ofInstant]
  constructor
  · exact ⟨_, hstatus⟩
  · omega
  · simp only [hstarted, ne_eq, not_false_eq_true, iff_true]
    omega
  · rw [isTerminal_of_status hstatus]
    simp [eq, hfin, Status.isTerminal]
  · simp [eq, hfin]
  · exact fun _ => ⟨hstarted, by rw [eq]⟩
  · simp [hasStatus_of_status hstatus]
  · rw [hasStatus_of_status hstatus]
    simp [eq, hres]
  · rw [hasStatus_of_status hstatus]
    simp [eq, hrea]
  · simp [hasStatus_of_status hstatus]

/-- The end of an attempt fills in what its outcome brings. -/
theorem finished (hr : r.Recorded) {attempt : UInt32} {o : Outcome} {now : Instant}
    (hheld : r.isInAttempt attempt) (h : r.finishedWith o now = some r') : r'.Recorded := by
  have hdeq := (isInAttempt_iff.mp hheld).1
  obtain ⟨hfin, hres, hrea⟩ := hr.not_done hdeq rfl
  obtain ⟨hstarted, -⟩ := hr.dequeued (hasStatus_iff.mpr hdeq)
  have hpos := hr.started_iff.mpr hstarted
  obtain ⟨events, -, eq⟩ := finishedWith_eq_some h
  have hstatus : r'.status = ofStatus o.status := by rw [eq, withOutcome_status]
  have hattempts : r'.attempts = r.attempts := by rw [eq, withOutcome_attempts]
  constructor
  · exact ⟨_, hstatus⟩
  · omega
  · simp [hpos, eq, hstarted]
  · rw [isTerminal_of_status hstatus]
    cases o <;> simp [eq, withOutcome, Outcome.status, Status.isTerminal, hfin, ofInstant]
  · cases o <;> simp [eq, withOutcome, hfin]
  · rw [hasStatus_of_status hstatus]
    cases o <;> simp [Outcome.status]
  · have hne : r'.attempts ≠ 0 := by omega
    simp [hne]
  · rw [hasStatus_of_status hstatus]
    cases o <;> simp [eq, withOutcome, Outcome.status, hres]
  · rw [hasStatus_of_status hstatus]
    cases o <;> simp [eq, withOutcome, Outcome.status, hrea]
  · rw [hasStatus_of_status hstatus]
    cases o <;> simp [eq, withOutcome, Outcome.status]

/-- A claim that is taken back leaves the start and the missing end of its attempt. -/
theorem requeued (hr : r.Recorded) {name stamp : String} {now : Instant}
    (hstale : r.isStale name stamp) (h : r.requeued now = some r') : r'.Recorded := by
  have hdeq := status_of_isStale hstale
  obtain ⟨hfin, hres, hrea⟩ := hr.not_done hdeq rfl
  obtain ⟨hstarted, -⟩ := hr.dequeued (hasStatus_iff.mpr hdeq)
  have hpos := hr.started_iff.mpr hstarted
  obtain ⟨events, -, eq⟩ := requeued_eq_some h
  have hstatus : r'.status = ofStatus .enqueued := by rw [eq]
  have hattempts : r'.attempts = r.attempts := by rw [eq]
  constructor
  · exact ⟨_, hstatus⟩
  · omega
  · simp [hpos, eq, hstarted]
  · rw [isTerminal_of_status hstatus]
    simp [eq, hfin, Status.isTerminal]
  · simp [eq, hfin]
  · simp [hasStatus_of_status hstatus]
  · have hne : r'.attempts ≠ 0 := by omega
    simp [hne]
  · rw [hasStatus_of_status hstatus]
    simp [eq, hres]
  · rw [hasStatus_of_status hstatus]
    simp [eq, hrea]
  · simp [hasStatus_of_status hstatus]

end Row.Recorded

/-- Every change keeps the columns together. -/
theorem recorded_of_change {c : Call} {r r' : Row} (h : Change c r r') (hr : r.Recorded) :
    r'.Recorded := by
  cases h with
  | claimed hopen eq => exact hr.claimed hopen eq
  | finished _ hheld eq => exact hr.finished hheld eq
  | requeued hstale eq => exact hr.requeued hstale eq

/-- Columns stay together, whatever is called. -/
theorem recorded_after {cs : List Call} (hcs : AllNew cs) {s : Store} (hk : Keyed s.rows)
    (hs : ∀ r ∈ s.rows, r.Recorded) : ∀ r ∈ (s.after cs).rows, r.Recorded :=
  rows_after (fun _ hj => recorded_ofJob hj) (fun _ _ _ h hr => recorded_of_change h hr) hcs hk hs

/-- The columns of a row go together after any calls on a new store. -/
theorem recorded_of_mem {cs : List Call} (hcs : AllNew cs) {r : Row}
    (hr : r ∈ (Store.empty.after cs).rows) : r.Recorded :=
  recorded_after hcs keyed_empty (fun _ h => absurd h List.not_mem_nil) r hr

/-- For instance of a job that failed. -/
theorem recorded_sample : ∃ r ∈ (Store.empty.after
      (lifeCalls .sample .epoch (.failed "no such address") .epoch)).rows,
    r.status = Row.ofStatus .failed ∧ r.Recorded := by
  obtain ⟨r, hafter, -, hstatus⟩ :=
    life sample_isNew sample_available (.failed "no such address") .epoch
  have hr : r ∈ (Store.empty.after
      (lifeCalls .sample .epoch (.failed "no such address") .epoch)).rows := by
    rw [hafter]
    exact List.mem_singleton_self r
  exact ⟨r, hr, hstatus, recorded_of_mem (allNew_life sample_isNew _ _ _) hr⟩

end JobQueue
