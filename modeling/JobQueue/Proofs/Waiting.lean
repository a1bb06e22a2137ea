import JobQueue.Proofs.Budget
import JobQueue.Proofs.Tables
import JobQueue.Proofs.Windows

/-!
# JobQueue.Proofs.Waiting

No job is handed out before it is due.

- A job is due from its last release on (`Step.Releases`): a delay after it was made, a delay
  after an attempt that failed, or as soon as its claim is taken back.
- The row of a job that waits holds the instant of the last release, by its stamp, and no
  claim takes it before (`exists_release`).
- After an attempt that failed, the next claim of the job comes no sooner than the shortest
  delay of its task, and neither do later ones, unless clocks go back (`claimed_late`).

Instants are counted in nanoseconds (`Instant.toNanos`), of which stamps keep the whole
microseconds.
-/

namespace JobQueue

/-- The instant at which a call makes a job due or hands one out; for a job that is inserted,
that of its making. -/
def Call.instants : Call → List Instant
  | .insert j => [j.created]
  | .insertIfAbsent j _ => [j.created]
  | .claim _ now => [now]
  | .finish _ _ (.retry _ _) now => [now]
  | .requeue _ _ now => [now]
  | _ => []

/-- The instants from which calls make jobs due, and those up to which they look for them. -/
def Call.dues : Call → List Instant
  | .insert j => [j.available]
  | .insertIfAbsent j _ => [j.available]
  | .claim _ now => [now]
  | .finish _ _ (.retry _ available) _ => [available]
  | .requeue _ _ now => [now]
  | _ => []

/-- Calls that make jobs due as producers, workers and the reaper do. -/
structure Timely (cs : List Call) : Prop where
  /-- Jobs are built from blueprints. -/
  built : ∀ c ∈ cs, ∀ j, c.job? = some j → ∃ b, Queue.build j.id j.created j.name b = .ok j
  /-- Other attempts are decided with delays that can be used. -/
  decided : ∀ id n error available now, Call.finish id n (.retry error available) now ∈ cs →
    ∃ t : Task, t.checkBackoff = .ok () ∧ t.Works (.finish id n (.retry error available) now)
  /-- No instant lies within a leap second. -/
  ordinary : ∀ c ∈ cs, ∀ t ∈ c.instants, t.isLeap = false
  /-- Nothing is due in a year that stamps do not have. -/
  stamped : ∀ c ∈ cs, ∀ t ∈ c.dues, t.HasStamp

/-- A step makes a job due from a count of nanoseconds on. -/
inductive Step.Releases (e : Step) (id : JobId) : Int → Prop where
  /-- The job is inserted: its delay counts from its making. -/
  | inserted {j : Job} {blueprint : Blueprint} (hj : e.call.job? = some j) (hid : j.id = id)
      (added : e.before.row? id = none ∧ e.after.row? id = some (.ofJob j))
      (built : Queue.build j.id j.created j.name blueprint = .ok j) :
      e.Releases id (j.created.toNanos + blueprint.delay.nanos)
  /-- An attempt failed: a delay that is not below the shortest counts from its end. -/
  | retried {t : Task} {n : UInt32} {error : String} {available stop : Instant} {d : Duration}
      (hcall : e.call = .finish id n (.retry error available) stop) (ends : e.ends id n)
      (usable : t.checkBackoff = .ok ()) (works : t.Works e.call)
      (delay : t.backoff.delay n = .ok d) (long : t.backoff.min ≤ d) :
      e.Releases id (stop.toNanos + d.nanos)
  /-- The claim is taken back. -/
  | requeued {name : String} {startedBefore now : Instant}
      (hcall : e.call = .requeue name startedBefore now) (taken : ¬ e.Spares id) :
      e.Releases id now.toNanos

/-- What holds of a history in which no job is handed out before it is due. -/
structure Punctual (h : List Step) : Prop where
  /-- A job that is handed out was due, since the last call that touched it. -/
  released : ∀ pre e post id n name (t : Instant), h = pre ++ e :: post →
    e.call = .claim name t → e.gives id n →
    ∃ old q mid u, pre = old ++ q :: mid ∧ q.Releases id u ∧ (∀ x ∈ mid, x.Spares id) ∧
      u / 1000 * 1000 ≤ t.toNanos
  /-- After an attempt that failed, a job is not handed out before the shortest delay is
  over, unless it was claimed in between when that was over, and clocks went back since. -/
  delayed : ∀ pre e mid x post (task : Task) id n k error available (stop : Instant) name
      (t : Instant), h = pre ++ e :: (mid ++ x :: post) →
    e.call = .finish id n (.retry error available) stop → e.ends id n →
    task.checkBackoff = .ok () → task.Works e.call → x.call = .claim name t → x.gives id k →
    (stop.toNanos + task.backoff.min.nanos) / 1000 * 1000 ≤ t.toNanos ∨
      ∃ y ∈ mid, ∃ name' t', y.call = .claim name' t' ∧ ¬ y.Spares id ∧
        (stop.toNanos + task.backoff.min.nanos) / 1000 * 1000 ≤ t'.toNanos ∧
        t.toNanos < t'.toNanos

/-! ## Releases -/

section

variable {cs : List Call} {id : JobId}

/-- A job that is built is due its delay after its making. -/
theorem available_of_build {i : JobId} {created : Instant} {name : String} {b : Blueprint}
    {j : Job} (h : Queue.build i created name b = .ok j) :
    created.after? b.delay = some j.available := by
  unfold Queue.build at h
  split at h
  · cases h
  · split at h
    · cases h
    · next hafter =>
        cases h
        exact hafter

/-- What is decided with a delay that does not leave the calendar is due after it. -/
theorem after?_of_decide {result : Except HandlerError Json} {n m : UInt32} {b : Backoff}
    {stop : Instant} {error : String} {available : Instant}
    (h : Outcome.decide result n m b stop = .ok (.retry error available))
    (hstamp : available.HasStamp) :
    ∃ d, b.delay n = .ok d ∧ stop.after? d = some available := by
  obtain ⟨-, d, hd, havailable⟩ := Outcome.of_decide_retry h
  refine ⟨d, hd, ?_⟩
  cases hafter : stop.after? d with
  | some u => rw [havailable, hafter, Option.getD_some]
  | none =>
      rw [havailable, hafter, Option.getD_none, Instant.hasStamp_iff] at hstamp
      exact absurd hstamp (by decide)

/-- After an attempt that failed, a job is due when the delay is over. -/
theorem due_of_works (ht : Timely cs) {t : Task} (husable : t.checkBackoff = .ok ()) {n : UInt32}
    {error : String} {available stop : Instant}
    (hmem : Call.finish id n (.retry error available) stop ∈ cs)
    (hworks : t.Works (.finish id n (.retry error available) stop)) :
    ∃ d, t.backoff.delay n = .ok d ∧ t.backoff.min ≤ d ∧ available.isLeap = false ∧
      available.HasStamp ∧ available.toNanos = stop.toNanos + d.nanos := by
  have hleap := ht.ordinary _ hmem stop (by simp [Call.instants])
  have hstamp := ht.stamped _ hmem available (by simp [Call.dues])
  cases hworks with
  | reports decided =>
      obtain ⟨d, hd, hsum⟩ := after?_of_decide decided hstamp
      obtain ⟨hcount, haleap⟩ := Instant.toNanos_of_after? hleap hsum
      exact ⟨d, hd, Task.min_le_delay husable hd, haleap, hstamp, hcount⟩

/-- A row that waits is due from the release that made it what it is. -/
theorem releases_of_makes (ht : Timely cs) {e : Step} (hk : Keyed e.before.rows)
    (hmem : e.call ∈ cs) {r : Row} (hafter : e.after.row? id = some r) (h : e.Makes id r)
    (hopen : r.status = Row.ofStatus .enqueued) :
    ∃ a, r.available = Row.ofInstant a ∧ a.isLeap = false ∧ a.HasStamp ∧
      e.Releases id a.toNanos := by
  obtain ⟨s, c⟩ := e
  cases h with
  | @inserted j hj hid absent =>
      obtain ⟨b, hbuild⟩ := ht.built c hmem j hj
      have hcreated : j.created ∈ c.instants := by cases c <;> cases hj <;> simp [Call.instants]
      have havailable : j.available ∈ c.dues := by cases c <;> cases hj <;> simp [Call.dues]
      obtain ⟨hcount, haleap⟩ :=
        Instant.toNanos_of_after? (ht.ordinary c hmem _ hcreated) (available_of_build hbuild)
      refine ⟨j.available, rfl, haleap, ht.stamped c hmem _ havailable, ?_⟩
      rw [hcount]
      exact .inserted hj hid ⟨absent, hafter⟩ hbuild
  | @changed old _ hold hch =>
      have htaken := Step.not_spares_of_change (e := ⟨s, c⟩) hold hafter hch
      cases hch with
      | claimed hopen' eq =>
          have hdeq := Change.status_of_claim (.claimed hopen' eq)
          rw [hdeq, Row.ofStatus_inj] at hopen
          exact absurd hopen (by decide)
      | @finished own n o stop _ _ mine held eq =>
          have hch : Change (.finish own n o stop) old r := .finished mine held eq
          obtain ⟨rfl, hends⟩ := Step.ends_of_change (e := ⟨s, _⟩) hk rfl hold hafter hch
          have hstatus := hch.enters_of_finish.status.symm.trans hopen
          obtain ⟨events, -, rfl⟩ := Row.finishedWith_eq_some eq
          cases o with
          | retry error available =>
              obtain ⟨t, husable, hworks⟩ := ht.decided _ _ _ _ _ hmem
              obtain ⟨d, hd, hmin, haleap, hstamp, hcount⟩ := due_of_works ht husable hmem hworks
              refine ⟨available, rfl, haleap, hstamp, ?_⟩
              rw [hcount]
              exact .retried rfl hends husable hworks hd hmin
          | completed _ | failed _ | cancelled _ =>
              exact absurd (Row.ofStatus_inj.mp hstatus) (by simp [Outcome.event, Outcome.status])
      | @requeued name startedBefore now _ _ stale eq =>
          obtain ⟨events, -, rfl⟩ := Row.requeued_eq_some eq
          have hleap := ht.ordinary _ hmem now (by simp [Call.instants])
          have hstamp := ht.stamped _ hmem now (by simp [Call.dues])
          exact ⟨now, rfl, hleap, hstamp, .requeued rfl htaken⟩

/-! ## Claims -/

/-- Only a claim changes a row that waits, and only once the row may be claimed. -/
theorem Change.eq_claim_of_enqueued {c : Call} {r r' : Row} (h : Change c r r')
    (hopen : r.status = Row.ofStatus .enqueued) :
    ∃ name t, c = .claim name t ∧ r.available.upTo (Stamp.ofInstant t) := by
  cases h with
  | @claimed name t _ _ open_ _ =>
      rw [Row.isClaimable, Bool.and_eq_true] at open_
      exact ⟨name, t, rfl, open_.2⟩
  | finished _ held _ =>
      rw [(Row.isInAttempt_iff.mp held).1, Row.ofStatus_inj] at hopen
      exact absurd hopen (by decide)
  | requeued stale _ =>
      rw [Row.status_of_isStale stale, Row.ofStatus_inj] at hopen
      exact absurd hopen (by decide)

/-- A row that a claim changes waits. -/
theorem Change.enqueued_of_claim {name : String} {t : Instant} {r r' : Row}
    (h : Change (.claim name t) r r') : r.status = Row.ofStatus .enqueued := by
  cases h with
  | claimed open_ _ => exact Row.status_of_isClaimable open_

/-- A claim that takes what is due at an instant is not before its whole microseconds. -/
theorem trunc_le_of_upTo (ht : Timely cs) {a : Instant} (haleap : a.isLeap = false)
    (hastamp : a.HasStamp) {name : String} {t : Instant} (hmem : Call.claim name t ∈ cs)
    (h : (Row.ofInstant a).upTo (Stamp.ofInstant t)) : a.toNanos / 1000 * 1000 ≤ t.toNanos := by
  have hleap := ht.ordinary _ hmem t (by simp [Call.instants])
  have hstamp := ht.stamped _ hmem t (by simp [Call.dues])
  refine Instant.toNanos_trunc_le hastamp haleap hstamp hleap ?_
  rw [Row.ofInstant, Column.upTo_text, Bool.not_eq_true', decide_eq_false_iff_not,
    Stamp.ofInstant_lt_iff] at h
  exact Instant.not_lt.mp h

/-- A claim takes a job that was released before, no sooner than it is due. -/
theorem exists_release (ht : Timely cs) {pre post : List Step} {e : Step}
    (h : Store.empty.history cs = pre ++ e :: post) {name : String} {t : Instant}
    (hcall : e.call = .claim name t) {r r' : Row} (hr : e.before.row? id = some r)
    (hch : Change e.call r r') :
    ∃ old q mid u, pre = old ++ q :: mid ∧ q.Releases id u ∧ (∀ x ∈ mid, x.Spares id) ∧
      u / 1000 * 1000 ≤ t.toNanos := by
  have hmem : ∀ x ∈ pre, x.call ∈ cs := fun x hx =>
    Store.call_mem_of_history (by rw [h]; exact List.mem_append_left _ hx)
  obtain ⟨cs₁, cs₂, rfl, rfl, hbefore, -⟩ := Store.calls_of_history h
  rw [hbefore] at hr
  obtain ⟨old, q, mid, hhist, hafter, hmakes, hmid⟩ := exists_last_change hr
  rw [hcall] at hch
  have hopen := hch.enqueued_of_claim
  obtain ⟨name', t', hcall', hupTo⟩ := hch.eq_claim_of_enqueued hopen
  cases hcall'
  obtain ⟨a, havailable, haleap, hastamp, hreleases⟩ :=
    releases_of_makes ht (keyed_of_history hhist) (hmem q (by simp [hhist])) hafter hmakes hopen
  rw [havailable] at hupTo
  have hclaim : Call.claim name t ∈ cs₁ ++ e.call :: cs₂ := by simp [hcall]
  exact ⟨old, q, mid, _, hhist, hreleases, hmid,
    trunc_le_of_upTo ht haleap hastamp hclaim hupTo⟩

/-- A job that waits is claimed, now or before, no sooner than its row allows. -/
theorem upTo_of_claimed_later {s : Store} (hk : Keyed s.rows) (hid : id ∉ insertedIds cs)
    {r : Row} (hr : s.row? id = some r) (hopen : r.status = Row.ofStatus .enqueued)
    {mid post : List Step} {x : Step} (h : s.history cs = mid ++ x :: post) {name : String}
    {t : Instant} (hcall : x.call = .claim name t) {q q' : Row} (hq : x.before.row? id = some q)
    (hch : Change x.call q q') :
    r.available.upTo (Stamp.ofInstant t) ∨ ∃ y ∈ mid, ∃ name' t', y.call = .claim name' t' ∧
      ¬ y.Spares id ∧ r.available.upTo (Stamp.ofInstant t') := by
  induction mid generalizing s cs with
  | nil =>
      obtain ⟨c, cs, rfl⟩ := List.exists_cons_of_ne_nil (l := cs) (by rintro rfl; simp at h)
      rw [Store.history_cons, List.nil_append, List.cons.injEq] at h
      obtain ⟨rfl, -⟩ := h
      obtain rfl : r = q := Option.some.inj (hr.symm.trans hq)
      obtain ⟨name', t', hcall', hupTo⟩ := hch.eq_claim_of_enqueued hopen
      cases hcall.symm.trans hcall'
      exact .inl hupTo
  | cons m mid ih =>
      obtain ⟨c, cs, rfl⟩ := List.exists_cons_of_ne_nil (l := cs) (by rintro rfl; simp at h)
      rw [Store.history_cons, List.cons_append, List.cons.injEq] at h
      obtain ⟨rfl, hrest⟩ := h
      have hidrest : id ∉ insertedIds cs := fun hm => hid (insertedIds_subset hm)
      have hfate := fate_next hk c id
      rw [hr] at hfate
      generalize hnext : (c.next s).row? id = o at hfate
      cases hfate with
      | same =>
          refine (ih (keyed_next hk) hidrest hnext hrest).imp_right fun ⟨y, hy, hclaim⟩ => ?_
          exact ⟨y, List.mem_cons_of_mem _ hy, hclaim⟩
      | changed hch' =>
          -- the first change of a row that waits is a claim
          obtain ⟨name', t', rfl, hupTo⟩ := hch'.eq_claim_of_enqueued hopen
          exact .inr ⟨_, List.mem_cons_self, name', t', rfl,
            Step.not_spares_of_change (e := ⟨s, _⟩) hr hnext hch', hupTo⟩
      | removed =>
          obtain ⟨cs₁, cs₂, rfl, -, hbefore, -⟩ := Store.calls_of_history hrest
          have hid₁ : id ∉ insertedIds cs₁ := fun hm =>
            hidrest (by rw [insertedIds_append]; exact List.mem_append_left _ hm)
          rw [hbefore, row?_after_eq_none (keyed_next hk) hid₁ hnext] at hq
          cases hq

/-- After an attempt that failed, a job is not claimed before the shortest delay is over,
unless it was claimed in between when that was over, and clocks went back since. -/
theorem claimed_late (ht : Timely cs) (hn : (insertedIds cs).Nodup) {pre mid post : List Step}
    {e x : Step} (h : Store.empty.history cs = pre ++ e :: (mid ++ x :: post)) {n : UInt32}
    {error : String} {available stop : Instant}
    (hcall : e.call = .finish id n (.retry error available) stop) (hends : e.ends id n)
    {task : Task} (husable : task.checkBackoff = .ok ()) (hworks : task.Works e.call)
    {name : String} {t : Instant} (hclaim : x.call = .claim name t) {q q' : Row}
    (hq : x.before.row? id = some q) (hch : Change x.call q q') :
    (stop.toNanos + task.backoff.min.nanos) / 1000 * 1000 ≤ t.toNanos ∨
      ∃ y ∈ mid, ∃ name' t', y.call = .claim name' t' ∧ ¬ y.Spares id ∧
        (stop.toNanos + task.backoff.min.nanos) / 1000 * 1000 ≤ t'.toNanos ∧
        t.toNanos < t'.toNanos := by
  have hk := keyed_of_history h
  have hmem : ∀ y ∈ mid ++ [x], y.call ∈ cs := fun y hy =>
    Store.call_mem_of_history (by rw [h]; simp at hy ⊢; tauto)
  obtain ⟨r, r', -, -, hafter, hchange⟩ := Step.row?_of_ends hk hends
  obtain ⟨cs₁, cs₂, rfl, -, hbefore, hlater⟩ := Store.calls_of_history h
  -- the row that the report leaves waits for what was decided
  have hreport : Call.finish id n (.retry error available) stop ∈ cs₁ ++ e.call :: cs₂ := by
    simp [hcall]
  obtain ⟨d, -, hmin, haleap, hstamp, hcount⟩ :=
    due_of_works ht husable hreport (hcall ▸ hworks)
  have hle : task.backoff.min.nanos ≤ d.nanos := hmin
  have hrow : r'.status = Row.ofStatus .enqueued ∧ r'.available = Row.ofInstant available := by
    rw [hcall] at hchange
    cases hchange with
    | finished _ _ eq =>
        obtain ⟨events, -, rfl⟩ := Row.finishedWith_eq_some eq
        exact ⟨rfl, rfl⟩
  have hdue {name : String} {t : Instant} (hclaim : Call.claim name t ∈ cs₁ ++ e.call :: cs₂)
      (hupTo : r'.available.upTo (Stamp.ofInstant t)) :
      (stop.toNanos + task.backoff.min.nanos) / 1000 * 1000 ≤ t.toNanos := by
    rw [hrow.2] at hupTo
    have htrunc := trunc_le_of_upTo ht haleap hstamp hclaim hupTo
    omega
  -- so its next claim is not before that
  have hstore : e.after = Store.empty.after (cs₁ ++ [e.call]) := by
    rw [Store.after_append, ← hbefore]
    rfl
  have hid : id ∉ insertedIds cs₂ := by
    rw [hstore] at hafter
    exact not_inserted_again (by rwa [List.append_assoc, List.singleton_append]) hafter
  have hkafter : Keyed e.after.rows := keyed_next hk
  rcases upTo_of_claimed_later hkafter hid hafter hrow.1 hlater.symm hclaim hq hch with
    hupTo | ⟨y, hy, name', t', hclaim', htaken, hupTo⟩
  · exact .inl (hdue (hclaim ▸ hmem x (by simp)) hupTo)
  · have hdue' := hdue (hclaim' ▸ hmem y (by simp [hy])) hupTo
    by_cases hlt : t.toNanos < t'.toNanos
    · exact .inr ⟨y, hy, name', t', hclaim', htaken, hdue', hlt⟩
    · exact .inl (by omega)

end

/-! ## A sample -/

theorem build_sample :
    Queue.build Job.sample.id .epoch "mail" ⟨"", .null, .zero⟩ = .ok .sample := by
  have hname : ("mail" : String).isEmpty = false := by decide
  have hafter : Instant.epoch.after? .zero = some .epoch := by decide
  rw [Queue.build, hname, if_neg (by decide)]
  dsimp only
  rw [hafter]
  rfl

theorem busy_usable : Task.busy.checkBackoff = .ok () :=
  Task.checkBackoff_eq_ok_iff.mpr Backoff.usable_standard

theorem timely_weary : Timely weary where
  built := by
    have hbuild : ∃ b, Queue.build Job.sample.id Job.sample.created Job.sample.name b =
      .ok .sample := ⟨_, build_sample⟩
    simp [weary, Call.job?, hbuild]
  decided _ _ _ _ _ h := ⟨.busy, busy_usable, weary_works h⟩
  ordinary := by decide
  stamped := by
    simp only [Instant.hasStamp_iff]
    decide

/-- The calls for the sample up to the end of its first attempt. -/
def failedOnce : List Call :=
  [.insert .sample, .claim "mail" .epoch, .finish Job.sample.id 1 (.retry "busy" .second) .epoch]

/-- The sample after its first attempt. -/
def Job.failedOnce : Job :=
  (Job.sample.withClaim .epoch).withOutcome (.retry "busy" .second) .epoch

theorem Instant.isWhole_second : Instant.second.IsWhole := isWhole_ofSecond 1

theorem failedOnce_isWhole : Job.failedOnce.IsWhole :=
  (Job.isWhole_sample.withClaim Instant.isWhole_epoch).withOutcome ⟨by rfl, Instant.isWhole_second⟩
    Instant.isWhole_epoch

/-- A whole job that is alone is claimed when it is due. -/
theorem claim_ofJobs_alone {j : Job} (hj : j.IsWhole) {now : Instant} (hnow : now.IsWhole)
    (hopen : j.isEligible now) (hroom : j.attempts < 4294967295) :
    (Store.ofJobs [j]).claim j.name now =
      (.ok (some (j.withClaim now)), .ofJobs [j.withClaim now]) :=
  Store.claim_ofJobs [] [] (List.nodup_singleton _) hj hnow
    (Store.claimable_ofJobs [] [] (List.forall_mem_singleton.mpr hj) hnow ⟨rfl, hopen⟩
      fun _ h => absurd h List.not_mem_nil) hroom

/-- The sample is in its first attempt. -/
theorem after_first_claim : Store.empty.after [.insert .sample, .claim "mail" .epoch] =
    .ofJobs [Job.sample.withClaim .epoch] := by
  have hinsert : Store.empty.after ([Job.sample].map Call.insert) = .ofJobs [.sample] :=
    Store.after_insert_ofJobs (by decide)
  have hclaim := claim_ofJobs_alone Job.isWhole_sample Instant.isWhole_epoch (by decide) (by decide)
  have hcalls : [Call.insert .sample, .claim "mail" .epoch] =
    [Job.sample].map Call.insert ++ [.claim "mail" .epoch] := rfl
  rw [hcalls, Store.after_append, hinsert, Store.after_cons, Store.after_nil, Call.next]
  exact congrArg Prod.snd hclaim

theorem finish_first_claim :
    (Store.ofJobs [Job.sample.withClaim .epoch]).finish Job.sample.id 1 (.retry "busy" .second)
      .epoch = (.ok true, .ofJobs [.failedOnce]) :=
  Store.finish_ofJobs [] [] (j := Job.sample.withClaim .epoch) (List.nodup_singleton _) rfl
    (.retry "busy" .second) .epoch

theorem after_failedOnce : Store.empty.after failedOnce = .ofJobs [.failedOnce] := by
  have hcalls : failedOnce = [.insert .sample, .claim "mail" .epoch] ++
    [.finish Job.sample.id 1 (.retry "busy" .second) .epoch] := rfl
  rw [hcalls, Store.after_append, after_first_claim, Store.after_cons, Store.after_nil, Call.next,
    finish_first_claim]

theorem claim_failedOnce : (Store.ofJobs [.failedOnce]).claim "mail" .second =
    (.ok (some (Job.failedOnce.withClaim .second)), .ofJobs [Job.failedOnce.withClaim .second]) :=
  claim_ofJobs_alone failedOnce_isWhole Instant.isWhole_second (by decide) (by decide)

/-- After its first attempt the sample is handed out when it is due. -/
theorem gives_after_failure :
    (Step.mk (Store.empty.after failedOnce) (.claim "mail" .second)).gives Job.sample.id 2 := by
  have hgives := Step.gives_of_claim (congrArg Prod.fst claim_failedOnce)
  rwa [← after_failedOnce] at hgives

/-! ## All runs -/

/-- Where jobs are made due as producers, workers and the reaper do, none is handed out
before it is due. -/
theorem never_early {cs : List Call} (ht : Timely cs) (hn : (insertedIds cs).Nodup) :
    Punctual (Store.empty.history cs) where
  released pre e post id n name t h hcall hgives := by
    obtain ⟨-, -, r, r', -, hr, -, hch, -⟩ := Step.row?_of_gives (keyed_of_history h) hgives
    exact exists_release ht h hcall hr hch
  delayed pre e mid x post task id n k error available stop name t h hcall hends husable hworks
      hclaim hgives := by
    have hmem : x ∈ Store.empty.history cs := by simp [h]
    obtain ⟨-, -, r, r', -, hr, -, hch, -⟩ :=
      Step.row?_of_gives (keyed_of_mem_history hmem) hgives
    exact claimed_late ht hn h hcall hends husable hworks hclaim hr hch

/-- For instance of a job that is handed out again after its first attempt. -/
theorem never_early_weary :
    Timely weary ∧ (insertedIds weary).Nodup ∧
      (∃ e ∈ Store.empty.history weary, e.call = .claim "mail" .second ∧
        ∃ n, e.gives Job.sample.id n) ∧
      Punctual (Store.empty.history weary) := by
  have hnodup : (insertedIds weary).Nodup := by decide
  exact ⟨timely_weary, hnodup,
    ⟨_, Store.mem_history _ failedOnce _ _, rfl, 2, gives_after_failure⟩,
    never_early timely_weary hnodup⟩

/-- The sample is claimed again when it is due. Then the clock goes back, and the claim is taken
back. -/
def setBack : List Call :=
  failedOnce ++ [.claim "mail" .second, .requeue "mail" (.ofSecond 2) .epoch]

/-- The sample is claimed for a third time. -/
def hurried : List Call := setBack ++ [.claim "mail" .epoch]

theorem hurried_works {id : JobId} {n : UInt32} {o : Outcome} {now : Instant}
    (h : Call.finish id n o now ∈ hurried) : Task.busy.Works (.finish id n o now) := by
  simp only [hurried, setBack, failedOnce, List.mem_append, List.mem_cons, List.not_mem_nil,
    or_false, Call.finish.injEq, reduceCtorEq, false_or] at h
  obtain ⟨rfl, rfl, rfl, rfl⟩ := h
  exact .reports busy_retries

theorem timely_hurried : Timely hurried where
  built := by
    have hbuild : ∃ b, Queue.build Job.sample.id Job.sample.created Job.sample.name b =
      .ok .sample := ⟨_, build_sample⟩
    simp [hurried, setBack, failedOnce, Call.job?, hbuild]
  decided _ _ _ _ _ h := ⟨.busy, busy_usable, hurried_works h⟩
  ordinary := by decide
  stamped := by
    simp only [Instant.hasStamp_iff]
    decide

/-- The sample after its second claim was taken back at an earlier instant. -/
def Job.backdated : Job := (Job.failedOnce.withClaim .second).withoutClaim .epoch

theorem after_setBack : Store.empty.after setBack = .ofJobs [.backdated] := by
  have hrequeue := Store.requeue_ofJobs [] [] (j := Job.failedOnce.withClaim .second)
    (fun _ h => absurd h List.not_mem_nil) rfl Instant.isWhole_second (Instant.isWhole_ofSecond 2)
    rfl (by decide) .epoch
  rw [setBack, Store.after_append, after_failedOnce, Store.after_cons, Call.next, claim_failedOnce,
    Store.after_cons, Store.after_nil, Call.next]
  exact hrequeue

/-- Before the delay after a failed attempt is over the job may be handed out, once it has been
claimed when that was over and the clock has gone back since. -/
theorem handed_out_within_delay :
    Timely hurried ∧ (insertedIds hurried).Nodup ∧
      ∃ pre e mid x post n k, Store.empty.history hurried = pre ++ e :: (mid ++ x :: post) ∧
        e.call = .finish Job.sample.id n (.retry "busy" .second) .epoch ∧
        e.ends Job.sample.id n ∧ Task.busy.checkBackoff = .ok () ∧ Task.busy.Works e.call ∧
        x.call = .claim "mail" .epoch ∧ x.gives Job.sample.id k ∧
        Instant.epoch.toNanos <
          (Instant.epoch.toNanos + Task.busy.backoff.min.nanos) / 1000 * 1000 := by
  have hbackdated : Job.backdated.IsWhole :=
    (failedOnce_isWhole.withClaim Instant.isWhole_second).withoutClaim Instant.isWhole_epoch
  have hclaim := claim_ofJobs_alone hbackdated Instant.isWhole_epoch (by decide) (by decide)
  have hgives := Step.gives_of_claim (congrArg Prod.fst hclaim)
  rw [← after_setBack] at hgives
  have hfinish := finish_first_claim
  rw [← after_first_claim] at hfinish
  have hcalls : failedOnce = [.insert .sample, .claim "mail" .epoch] ++
    [.finish Job.sample.id 1 (.retry "busy" .second) .epoch] := rfl
  have hhistory : Store.empty.history hurried =
      Store.empty.history [.insert .sample, .claim "mail" .epoch] ++
        ⟨Store.empty.after [.insert .sample, .claim "mail" .epoch],
          .finish Job.sample.id 1 (.retry "busy" .second) .epoch⟩ ::
        ((Store.empty.after failedOnce).history
            [.claim "mail" .second, .requeue "mail" (.ofSecond 2) .epoch] ++
          ⟨Store.empty.after setBack, .claim "mail" .epoch⟩ :: []) := by
    rw [hurried, Store.history_concat, setBack, Store.history_append]
    nth_rewrite 1 [hcalls]
    rw [Store.history_concat, List.append_assoc, List.append_assoc, List.singleton_append]
  exact ⟨timely_hurried, by decide, _, _, _, _, _, _, _, hhistory, rfl,
    Step.ends_of_finish (congrArg Prod.fst hfinish), busy_usable,
    hurried_works (List.mem_append_left _ (by simp [setBack, failedOnce])), rfl, hgives, by decide⟩

end JobQueue
