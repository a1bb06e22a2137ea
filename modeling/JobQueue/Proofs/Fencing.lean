import JobQueue.Proofs.History
import JobQueue.Proofs.Loading

/-!
# JobQueue.Proofs.Fencing

Whoever works on a job holds an attempt of it, and nobody else holds the same one.

A claim begins an attempt, the end of the attempt is recorded at most once, and only as
long as nothing else has happened to the job. Both are changes of its row at an age that
the number of the attempt tells, and rows never become younger, however producers,
workers and reapers interleave.
-/

namespace JobQueue

/-! ## Attempts -/

/-- Whether a job is in an attempt. -/
def Store.inAttempt (s : Store) (id : JobId) (n : UInt32) : Bool :=
  (s.row? id).any fun r => r.isInAttempt n

namespace Step

/-- Whether a claim answers with an attempt of a job. -/
def gives (e : Step) (id : JobId) (n : UInt32) : Bool :=
  match e.call with
  | .claim name now =>
      match (e.before.claim name now).1 with
      | .ok (some j) => j.id == id && j.attempts == n
      | _ => false
  | _ => false

/-- Whether the end of an attempt of a job is recorded. -/
def ends (e : Step) (id : JobId) (n : UInt32) : Bool :=
  match e.call with
  | .finish id' n' o now =>
      id' == id && n' == n &&
        match (e.before.finish id' n' o now).1 with
        | .ok recorded => recorded
        | .error _ => false
  | _ => false

/-- A claim moves a job to an attempt. -/
def Begins (e : Step) (id : JobId) (n : UInt32) : Prop :=
  (∃ name now, e.call = .claim name now) ∧ e.before.inAttempt id n = false ∧
    e.after.inAttempt id n = true

/-- The claim of a job is taken back. -/
def TakesBack (e : Step) (id : JobId) : Prop :=
  (∃ name startedBefore now, e.call = .requeue name startedBefore now) ∧ ¬ e.Spares id

end Step

/-- What holds of a history in which attempts are fenced. -/
structure Fenced (h : List Step) : Prop where
  /-- An attempt is given out once. -/
  given_once : ∀ id n, h.countP (·.gives id n) ≤ 1
  /-- What is given out is an attempt that the claim began. -/
  given_begins : ∀ e ∈ h, ∀ id n, e.gives id n → e.Begins id n
  /-- An end of an attempt is recorded once. -/
  ended_once : ∀ id n, h.countP (·.ends id n) ≤ 1
  /-- It is recorded after the claim that began the attempt, and before anything else
  happens to the job. -/
  ended_held : ∀ pre e post id n, h = pre ++ e :: post → e.ends id n →
    ∃ old c mid, pre = old ++ c :: mid ∧ c.Begins id n ∧ ∀ x ∈ mid, x.Spares id
  /-- It is not recorded after the claim has been taken back. -/
  fenced : ∀ pre c mid q post id n, h = pre ++ c :: (mid ++ q :: post) → c.Begins id n →
    q.TakesBack id → ∀ e ∈ post, ¬ e.ends id n
  /-- An end that is refused changes nothing. -/
  refused : ∀ e ∈ h, ∀ id n o now, e.call = .finish id n o now →
    (e.before.finish id n o now).1 = .ok false → e.after = e.before

/-! ## Steps on the row of a job -/

theorem inAttempt_of_row? {s : Store} {id : JobId} {n : UInt32} {r : Row}
    (h : s.row? id = some r) : s.inAttempt id n = r.isInAttempt n := by
  rw [Store.inAttempt, h]
  rfl

theorem row?_of_inAttempt {s : Store} {id : JobId} {n : UInt32} (h : s.inAttempt id n = true) :
    ∃ r, s.row? id = some r ∧ r.isInAttempt n := by
  rw [Store.inAttempt, Option.any_eq_true] at h
  exact h

namespace Step

variable {e : Step} {id : JobId} {n : UInt32}

/-- An end that is recorded is a change of the row in that attempt. -/
theorem row?_of_ends (hk : Keyed e.before.rows) (h : e.ends id n) :
    ∃ r r', e.before.row? id = some r ∧ r.isInAttempt n ∧ e.after.row? id = some r' ∧
      Change e.call r r' := by
  obtain ⟨s, c⟩ := e
  cases c with
  | finish id' n' o now =>
      simp only [ends, Bool.and_eq_true, beq_iff_eq] at h
      obtain ⟨⟨rfl, rfl⟩, hrecorded⟩ := h
      rcases s.finish_cases id' n' o now with ⟨a, hne, he⟩ | ⟨r, r', hr, hid, hheld, hnew, he⟩
      · rw [he] at hrecorded
        split at hrecorded
        · next recorded ha => exact absurd (hrecorded ▸ ha) hne
        · exact absurd hrecorded (by decide)
      · have hch : Change (.finish id' n' o now) r r' := .finished hid hheld hnew
        obtain ⟨hold, hnew'⟩ := row?_replace hk hr (is_iff.mp hid) hch
        refine ⟨r, r', hold, hheld, ?_, hch⟩
        rw [after, Call.next, he]
        exact hnew'
  | _ => simp [ends] at h

theorem ends_of_finish {s : Store} {o : Outcome} {now : Instant}
    (h : (s.finish id n o now).1 = .ok true) : (Step.mk s (.finish id n o now)).ends id n := by
  simp [ends, h]

theorem call_of_ends (h : e.ends id n) : ∃ o now, e.call = .finish id n o now := by
  obtain ⟨s, c⟩ := e
  cases c with
  | finish id' n' o now =>
      simp only [ends, Bool.and_eq_true, beq_iff_eq] at h
      obtain ⟨⟨rfl, rfl⟩, -⟩ := h
      exact ⟨o, now, rfl⟩
  | _ => simp [ends] at h

theorem not_spares_of_change {r r' : Row} (hr : e.before.row? id = some r)
    (hr' : e.after.row? id = some r') (hch : Change e.call r r') : ¬ e.Spares id := by
  intro hspares
  rw [Spares, hr, hr', Option.some.injEq] at hspares
  exact hch.ne hspares.symm

/-- A report that changes the row of a job is recorded, and is of that job. -/
theorem ends_of_change (hk : Keyed e.before.rows) {own : JobId} {o : Outcome} {now : Instant}
    (hcall : e.call = .finish own n o now) {r r' : Row} (hr : e.before.row? id = some r)
    (hr' : e.after.row? id = some r') (hch : Change e.call r r') : own = id ∧ e.ends id n := by
  have hne := not_spares_of_change hr hr' hch
  obtain ⟨s, c⟩ := e
  obtain rfl : c = .finish own n o now := hcall
  obtain ⟨-, hid⟩ := (rowOf?_eq_some_iff hk).mp hr
  cases hch with
  | finished mine =>
      obtain rfl : own = id := JobId.text_inj.mp (Column.text.inj ((is_iff.mp mine).symm.trans hid))
      rcases s.finish_cases own n o now with ⟨a, -, he⟩ | ⟨x, x', -, -, -, -, he⟩
      · refine absurd ?_ hne
        rw [Spares, after, Call.next, he]
      · exact ⟨rfl, ends_of_finish (by rw [he])⟩

/-- What is given out is the attempt of the row after the claim. -/
theorem row?_of_gives (hk : Keyed e.before.rows) (h : e.gives id n) :
    ∃ name now r r', e.call = .claim name now ∧ e.before.row? id = some r ∧
      e.after.row? id = some r' ∧ Change e.call r r' ∧ r'.isInAttempt n := by
  obtain ⟨s, c⟩ := e
  cases c with
  | claim name now =>
      simp only [gives] at h
      split at h
      · next j hanswer =>
          simp only [Bool.and_eq_true, beq_iff_eq] at h
          obtain ⟨rfl, rfl⟩ := h
          obtain ⟨r, r', hold, hnew, hch, hreads⟩ := Store.row?_of_claim hk hanswer
          have hdeq := hch.status_of_claim
          exact ⟨name, now, r, r', rfl, hold, hnew, hch,
            Row.isInAttempt_iff.mpr ⟨hdeq, hreads.attempts⟩⟩
      · exact absurd h (by decide)
  | _ => simp [gives] at h

theorem gives_of_claim {s : Store} {name : String} {now : Instant} {j : Job}
    (h : (s.claim name now).1 = .ok (some j)) :
    (Step.mk s (.claim name now)).gives j.id j.attempts := by
  simp [gives, h]

/-- The row in an attempt that a claim has just begun was claimed there. -/
theorem row?_of_begins (hk : Keyed e.before.rows) (h : e.Begins id n) :
    ∃ r r', e.before.row? id = some r ∧ e.after.row? id = some r' ∧ Change e.call r r' ∧
      r'.isInAttempt n := by
  obtain ⟨⟨name, now, hcall⟩, hbefore, hafter⟩ := h
  obtain ⟨r', hr', hin⟩ := row?_of_inAttempt hafter
  have hfate := e.fate hk id
  rw [hr'] at hfate
  generalize ho : e.before.row? id = o at hfate
  cases hfate with
  | same =>
      rw [inAttempt_of_row? ho, hin] at hbefore
      exact absurd hbefore (by decide)
  | inserted hj _ =>
      rw [hcall] at hj
      cases hj
  | changed hch => exact ⟨_, r', rfl, hr', hch, hin⟩

theorem begins_of_gives (hk : Keyed e.before.rows) (h : e.gives id n) : e.Begins id n := by
  obtain ⟨name, now, r, r', hcall, hold, hnew, hch, hin⟩ := row?_of_gives hk h
  obtain ⟨-, -, -, henqueued⟩ := hch.eq_claim (Row.isInAttempt_iff.mp hin).1
  refine ⟨⟨name, now, hcall⟩, ?_, (inAttempt_of_row? hnew).trans hin⟩
  rw [inAttempt_of_row? hold, Bool.eq_false_iff]
  intro hheld
  rw [(Row.isInAttempt_iff.mp hheld).1, Row.ofStatus_inj] at henqueued
  exact absurd henqueued (by decide)

end Step

/-! ## Histories -/

section

variable {cs : List Call} {pre mid post : List Step} {e c q : Step} {id : JobId} {n : UInt32}

/-- Once an attempt was given out, the row is too old for another claim of it. -/
theorem not_given_later (hn : (insertedIds cs).Nodup)
    (h : Store.empty.history cs = pre ++ e :: post) (he : e.gives id n) :
    ∀ x ∈ post, ¬ x.gives id n := by
  intro x hx hgives
  have hmem : x ∈ Store.empty.history cs := by simp [h, hx]
  obtain ⟨-, -, -, r', -, -, hr', -, hin⟩ := Step.row?_of_gives (keyed_of_history h) he
  obtain ⟨-, -, old, new, -, hold, -, hch, hnew⟩ :=
    Step.row?_of_gives (keyed_of_mem_history hmem) hgives
  have hle := age_le_of_later hn h hr' x hx old hold
  have hage := hch.age_eq
  rw [Row.age_of_isInAttempt hnew] at hage
  rw [Row.age_of_isInAttempt hin] at hle
  omega

/-- Once a row is older than an attempt, the end of that attempt is not recorded. -/
theorem not_ended_later (hn : (insertedIds cs).Nodup)
    (h : Store.empty.history cs = pre ++ e :: post) {r : Row} (hr : e.after.row? id = some r)
    (hage : 2 * (n.toNat : Int) ≤ r.age) : ∀ x ∈ post, ¬ x.ends id n := by
  intro x hx hends
  have hmem : x ∈ Store.empty.history cs := by simp [h, hx]
  obtain ⟨old, -, hold, hheld, -, -⟩ := Step.row?_of_ends (keyed_of_mem_history hmem) hends
  have hle := age_le_of_later hn h hr x hx old hold
  rw [Row.age_of_isInAttempt hheld] at hle
  omega

/-- An end that is recorded is that of the attempt that the last change of the row began. -/
theorem begun_of_ends (hcs : AllNew cs) (h : Store.empty.history cs = pre ++ e :: post)
    (he : e.ends id n) :
    ∃ old c mid, pre = old ++ c :: mid ∧ c.Begins id n ∧ ∀ x ∈ mid, x.Spares id := by
  obtain ⟨r, -, hr, hheld, -, -⟩ := Step.row?_of_ends (keyed_of_history h) he
  obtain ⟨cs₁, cs₂, rfl, rfl, hbefore, -⟩ := Store.calls_of_history h
  rw [hbefore] at hr
  obtain ⟨old, c, mid, old', hsplit, hclaim, hold, henqueued, hafter, hmid⟩ :=
    claim_of_dequeued (fun d hd => hcs d (List.mem_append_left _ hd)) hr
      (Row.isInAttempt_iff.mp hheld).1
  refine ⟨old, c, mid, hsplit, ⟨hclaim, ?_, (inAttempt_of_row? hafter).trans hheld⟩, hmid⟩
  rw [inAttempt_of_row? hold, Bool.eq_false_iff]
  intro hin
  rw [(Row.isInAttempt_iff.mp hin).1, Row.ofStatus_inj] at henqueued
  exact absurd henqueued (by decide)

/-- After a claim was taken back, the end of its attempt is not recorded. -/
theorem not_ended_of_takesBack (hn : (insertedIds cs).Nodup)
    (h : Store.empty.history cs = pre ++ c :: (mid ++ q :: post)) (hc : c.Begins id n)
    (hq : q.TakesBack id) : ∀ e ∈ post, ¬ e.ends id n := by
  have hsplit : Store.empty.history cs = (pre ++ c :: mid) ++ q :: post := by simp [h]
  have hkq := keyed_of_history hsplit
  obtain ⟨-, r, -, hr, -, hin⟩ := Step.row?_of_begins (keyed_of_history h) hc
  obtain ⟨⟨name, startedBefore, now, hcall⟩, hchanged⟩ := hq
  have hfate := q.fate hkq id
  generalize hafter : q.after.row? id = o' at hfate
  generalize hbefore : q.before.row? id = o at hfate
  -- taking the claim back ages the row past the attempt
  cases hfate with
  | same => exact absurd (hafter.trans hbefore.symm) hchanged
  | inserted hj _ =>
      rw [hcall] at hj
      cases hj
  | removed hrem =>
      rw [hcall] at hrem
      exact absurd hrem (by simp [Call.removes])
  | @changed old new hch =>
      refine not_ended_later hn hsplit hafter ?_
      have hle := age_le_of_later hn h hr q (by simp) old hbefore
      rw [Row.age_of_isInAttempt hin] at hle
      rw [hch.age_eq]
      omega

/-- An end that is not recorded changes nothing. -/
theorem Store.finish_of_not_recorded {s : Store} {id : JobId} {n : UInt32} {o : Outcome}
    {now : Instant} (h : (s.finish id n o now).1 ≠ .ok true) : (s.finish id n o now).2 = s := by
  rcases s.finish_cases id n o now with ⟨a, -, he⟩ | ⟨r, r', -, -, -, -, he⟩
  · rw [he]
  · exact absurd (congrArg Prod.fst he) h

end

/-- Attempts are fenced, whoever calls what and when. -/
theorem fenced_history {cs : List Call} (hcs : AllNew cs) (hn : (insertedIds cs).Nodup) :
    Fenced (Store.empty.history cs) where
  given_once id n := countP_le_one fun pre e post h => not_given_later hn h
  given_begins e he id n := Step.begins_of_gives (keyed_of_mem_history he)
  ended_once id n := countP_le_one fun pre e post h he => by
    obtain ⟨r, r', -, hheld, hr', hch⟩ := Step.row?_of_ends (keyed_of_history h) he
    refine not_ended_later hn h hr' ?_
    rw [hch.age_eq, Row.age_of_isInAttempt hheld]
    omega
  ended_held pre e post id n h := begun_of_ends hcs h
  fenced pre c mid q post id n h := not_ended_of_takesBack hn h
  refused e he id n o now hcall hfalse := by
    rw [Step.after, hcall]
    exact Store.finish_of_not_recorded (by rw [hfalse]; simp)

/-- Two claims of the sample, and a report of each. The first claim is taken back. -/
def contest : List Call :=
  [.insert .sample, .claim "mail" .epoch, .requeue "mail" .latest .epoch, .claim "mail" .epoch,
    .finish Job.sample.id 1 (.completed .null) .epoch,
    .finish Job.sample.id 2 (.failed "no such address") .epoch]

/-- For instance in a contest, where the first attempt is given out indeed. -/
theorem fenced_contest : Fenced (Store.empty.history contest) ∧
    ∃ e ∈ Store.empty.history contest, e.gives Job.sample.id 1 := by
  refine ⟨fenced_history ?_ (by decide), ⟨Store.empty.after [.insert .sample],
    .claim "mail" .epoch⟩, Store.mem_history _ [.insert .sample] _ _, ?_⟩
  · intro c hc j hj
    simp only [contest, List.mem_cons, List.not_mem_nil, or_false] at hc
    rcases hc with rfl | rfl | rfl | rfl | rfl | rfl <;> cases hj
    exact sample_isNew
  · have hclaim := claim_alone sample_isNew sample_available
    rw [sample_toJob, ← after_insert] at hclaim
    have hgives := Step.gives_of_claim (congrArg Prod.fst hclaim)
    have hid : Job.claimedSample.id = Job.sample.id := rfl
    have hattempts : Job.claimedSample.attempts = 1 := rfl
    rw [hid, hattempts] at hgives
    exact hgives

end JobQueue
