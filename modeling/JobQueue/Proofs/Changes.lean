import JobQueue.Proofs.Calls

/-!
# JobQueue.Proofs.Changes

What the changes of a row write, column by column.

- A row has the status that its column names (`hasStatus_iff`).
- A claim leads from `enqueued` to `dequeued` and counts one more attempt; the end
  of an attempt leads from `dequeued` to the status of its outcome, and taking a
  claim back leads from `dequeued` to `enqueued`.
- Each change adds an event (`Change.enters`). The status of the event may follow the
  one before, and the event tells the status, the attempts, the start and the end.
- No change touches the identity, the name, the label, the payload or the creation.
-/

namespace JobQueue

/-! ## Statuses -/

namespace Row

/-- Whether the row has a status that never changes again. -/
def isTerminal (r : Row) : Bool := Status.all.any fun t => t.isTerminal && r.hasStatus t

theorem hasStatus_iff {r : Row} {t : Status} : r.hasStatus t ↔ r.status = ofStatus t := by
  simp [hasStatus, Column.is, ofStatus]

theorem ofStatus_inj {t u : Status} : ofStatus t = ofStatus u ↔ t = u := by
  simp [ofStatus, Status.name_inj]

theorem hasStatus_of_status {r : Row} {t : Status} (h : r.status = ofStatus t) (u : Status) :
    r.hasStatus u ↔ t = u := by
  rw [hasStatus_iff, h, ofStatus_inj]

/-- A new job waits. -/
theorem status_ofJob {j : Job} (hj : j.IsNew) : (ofJob j).status = ofStatus .enqueued := by
  rw [hj]
  rfl

theorem isTerminal_of_status {r : Row} {t : Status} (h : r.status = ofStatus t) :
    r.isTerminal ↔ t.isTerminal := by
  simp only [isTerminal, List.any_eq_true, Bool.and_eq_true, hasStatus_of_status h]
  constructor
  · rintro ⟨u, -, hu, rfl⟩
    exact hu
  · exact fun ht => ⟨t, Status.mem_all t, ht, rfl⟩

theorem status_of_isClaimable {r : Row} {name now : String} (h : r.isClaimable name now) :
    r.status = ofStatus .enqueued := by
  simp only [isClaimable, Bool.and_eq_true] at h
  exact hasStatus_iff.mp h.1.2

theorem isInAttempt_iff {r : Row} {attempt : UInt32} :
    r.isInAttempt attempt ↔ r.status = ofStatus .dequeued ∧ r.attempts = attempt.toNat := by
  rw [isInAttempt, Bool.and_eq_true, hasStatus_iff, beq_iff_eq]

theorem status_of_isStale {r : Row} {name startedBefore : String}
    (h : r.isStale name startedBefore) : r.status = ofStatus .dequeued := by
  simp only [isStale, Bool.and_eq_true] at h
  exact hasStatus_iff.mp h.1.2

/-! ## Written columns -/

theorem claimed_eq_some {r r' : Row} {now : Instant} (h : r.claimed now = some r') :
    ∃ events, r.appended ⟨now, .dequeued, ""⟩ = some events ∧
      r' = { r with
        status := ofStatus .dequeued
        started := ofInstant now
        ended := .null
        attempts := r.attempts + 1
        events } := by
  obtain ⟨events, hev, hr⟩ := Option.bind_eq_some_iff.mp h
  exact ⟨events, hev, (Option.some.inj hr).symm⟩

theorem finishedWith_eq_some {r r' : Row} {o : Outcome} {now : Instant}
    (h : r.finishedWith o now = some r') :
    ∃ events, r.appended (o.event now) = some events ∧
      r' = { r.withOutcome o now with events } := by
  obtain ⟨events, hev, hr⟩ := Option.bind_eq_some_iff.mp h
  exact ⟨events, hev, (Option.some.inj hr).symm⟩

theorem requeued_eq_some {r r' : Row} {now : Instant} (h : r.requeued now = some r') :
    ∃ events, r.appended ⟨now, .enqueued, lifetimeExceeded⟩ = some events ∧
      r' = { r with status := ofStatus .enqueued, available := ofInstant now, events } := by
  obtain ⟨events, hev, hr⟩ := Option.bind_eq_some_iff.mp h
  exact ⟨events, hev, (Option.some.inj hr).symm⟩

@[simp] theorem withOutcome_status (r : Row) (o : Outcome) (now : Instant) :
    (r.withOutcome o now).status = ofStatus o.status := by
  cases o <;> rfl

@[simp] theorem withOutcome_attempts (r : Row) (o : Outcome) (now : Instant) :
    (r.withOutcome o now).attempts = r.attempts := by
  cases o <;> rfl

@[simp] theorem withOutcome_started (r : Row) (o : Outcome) (now : Instant) :
    (r.withOutcome o now).started = r.started := by
  cases o <;> rfl

end Row

/-! ## Events

Each change adds an event, and the event tells what else it writes. -/

/-- Whether a status may be entered after another one. -/
def Status.mayFollow : Status → Status → Bool
  | .enqueued, t => t == .dequeued
  | .dequeued, t => t != .dequeued
  | _, _ => false

/-- A row becomes another one with an event. -/
structure Row.Enters (r r' : Row) (e : Event) : Prop where
  events : r.appended e = some r'.events
  follows : ∃ t, r.status = ofStatus t ∧ t.mayFollow e.status
  status : r'.status = ofStatus e.status
  attempts : r'.attempts = r.attempts + if e.status == .dequeued then 1 else 0
  started : r'.started = if e.status == .dequeued then ofInstant e.timestamp else r.started
  finished : r'.finished = if e.status.isTerminal then ofInstant e.timestamp else r.finished
  error : e.status = .failed → r'.error = .text e.reason
  reason : e.status = .cancelled → r'.reason = .text e.reason

namespace Row

variable {r r' : Row} {now : Instant}

theorem enters_of_claimed {name stamp : String} (hopen : r.isClaimable name stamp)
    (h : r.claimed now = some r') : r.Enters r' ⟨now, .dequeued, ""⟩ := by
  obtain ⟨events, hevents, rfl⟩ := claimed_eq_some h
  exact
    { events := hevents
      follows := ⟨.enqueued, status_of_isClaimable hopen, rfl⟩
      status := rfl
      attempts := rfl
      started := rfl
      finished := rfl
      error := nofun
      reason := nofun }

theorem enters_of_finished {n : UInt32} {o : Outcome} (hheld : r.isInAttempt n)
    (h : r.finishedWith o now = some r') : r.Enters r' (o.event now) := by
  obtain ⟨events, hevents, rfl⟩ := finishedWith_eq_some h
  have hdeq := (isInAttempt_iff.mp hheld).1
  cases o with
  | completed v =>
      exact ⟨hevents, ⟨_, hdeq, rfl⟩, rfl, (Int.add_zero _).symm, rfl, rfl, nofun, nofun⟩
  | retry error available =>
      exact ⟨hevents, ⟨_, hdeq, rfl⟩, rfl, (Int.add_zero _).symm, rfl, rfl, nofun, nofun⟩
  | failed error =>
      exact ⟨hevents, ⟨_, hdeq, rfl⟩, rfl, (Int.add_zero _).symm, rfl, rfl, fun _ => rfl, nofun⟩
  | cancelled reason =>
      exact ⟨hevents, ⟨_, hdeq, rfl⟩, rfl, (Int.add_zero _).symm, rfl, rfl, nofun, fun _ => rfl⟩

theorem enters_of_requeued {name stamp : String} (hstale : r.isStale name stamp)
    (h : r.requeued now = some r') : r.Enters r' ⟨now, .enqueued, lifetimeExceeded⟩ := by
  obtain ⟨events, hevents, rfl⟩ := requeued_eq_some h
  exact
    { events := hevents
      follows := ⟨.dequeued, status_of_isStale hstale, rfl⟩
      status := rfl
      attempts := (Int.add_zero _).symm
      started := rfl
      finished := rfl
      error := nofun
      reason := nofun }

end Row

/-- Every change adds an event, which tells what else it writes. -/
theorem Change.enters {c : Call} {r r' : Row} (h : Change c r r') : ∃ e, r.Enters r' e := by
  cases h with
  | claimed hopen eq => exact ⟨_, Row.enters_of_claimed hopen eq⟩
  | finished _ hheld eq => exact ⟨_, Row.enters_of_finished hheld eq⟩
  | requeued hstale eq => exact ⟨_, Row.enters_of_requeued hstale eq⟩

/-- The end of an attempt adds the event of its outcome. -/
theorem Change.enters_of_finish {id : JobId} {n : UInt32} {o : Outcome} {now : Instant}
    {r r' : Row} (h : Change (.finish id n o now) r r') : r.Enters r' (o.event now) := by
  cases h with
  | finished _ hheld eq => exact Row.enters_of_finished hheld eq

/-- No change touches a row that is done. -/
theorem Change.not_isTerminal {c : Call} {r r' : Row} (h : Change c r r') :
    r.isTerminal = false := by
  obtain ⟨e, he⟩ := h.enters
  obtain ⟨t, ht, hfollows⟩ := he.follows
  rw [Bool.eq_false_iff]
  intro hdone
  have hterminal := (Row.isTerminal_of_status ht).mp hdone
  cases t with
  | enqueued | dequeued => exact absurd hterminal (by decide)
  | completed | failed | cancelled => exact absurd hfollows (by simp [Status.mayFollow])

/-! ## Kept columns -/

/-- No change touches what a row says about its job. -/
theorem Change.same {c : Call} {r r' : Row} (h : Change c r r') :
    r'.id = r.id ∧ r'.name = r.name ∧ r'.label = r.label ∧ r'.data = r.data ∧
      r'.created = r.created := by
  cases h with
  | claimed _ eq =>
      obtain ⟨events, -, rfl⟩ := Row.claimed_eq_some eq
      exact ⟨rfl, rfl, rfl, rfl, rfl⟩
  | @finished _ _ o now _ _ _ _ eq =>
      obtain ⟨events, -, rfl⟩ := Row.finishedWith_eq_some eq
      cases o <;> exact ⟨rfl, rfl, rfl, rfl, rfl⟩
  | requeued _ eq =>
      obtain ⟨events, -, rfl⟩ := Row.requeued_eq_some eq
      exact ⟨rfl, rfl, rfl, rfl, rfl⟩

theorem Change.id_eq {c : Call} {r r' : Row} (h : Change c r r') : r'.id = r.id := h.same.1

/-- What a claim makes of a row is claimed. -/
theorem Change.status_of_claim {name : String} {now : Instant} {r r' : Row}
    (h : Change (.claim name now) r r') : r'.status = Row.ofStatus .dequeued := by
  cases h with
  | claimed _ eq =>
      obtain ⟨events, -, rfl⟩ := Row.claimed_eq_some eq
      rfl

end JobQueue
