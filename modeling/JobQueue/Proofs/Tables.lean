import JobQueue.Proofs.Draining
import JobQueue.Proofs.Storing

/-!
# JobQueue.Proofs.Tables

Tables that hold the rows of given jobs.

- A change of the row of a job is the row of a changed job (`Job.withClaim`, `Job.withOutcome`,
  `Job.withoutClaim`). So operations lead from one such table to another (`claim_ofJobs`,
  `finish_ofJobs`, `requeue_ofJobs`).
- A job whose instants are whole microseconds, and none of them within a leap second that ends no
  minute, is loaded as it is (`Job.IsWhole.toJob`). Its changes are of that kind again, as long
  as their arguments are.
-/

namespace JobQueue

/-! ## Whole instants and jobs -/

/-- An instant that its stamp keeps as it is. -/
structure Instant.IsWhole (t : Instant) : Prop where
  hasStamp : t.HasStamp
  onMinute : t.OnMinute
  whole : t.truncMicros = t

theorem Instant.IsWhole.settled {t : Instant} (h : t.IsWhole) : t.settled = t :=
  settled_of_onMinute h.onMinute

theorem Instant.IsWhole.stamped {t : Instant} (h : t.IsWhole) : t.stamped = t := by
  rw [stamped_of_onMinute h.hasStamp h.onMinute, h.whole]

/-- An instant of the first minutes. -/
def Instant.ofSecond (n : UInt8) : Instant := ⟨n.toNat, 0, by have := n.toNat_lt; omega⟩

theorem Instant.isWhole_ofSecond (n : UInt8) : (ofSecond n).IsWhole where
  hasStamp := by
    have hsecs : (ofSecond n).secs = n.toNat := rfl
    have hlt := n.toNat_lt
    rw [hasStamp_iff]
    omega
  onMinute hleap := by
    have hnanos : (ofSecond n).nanos = 0 := rfl
    omega
  whole := ext rfl (by simp only [truncMicros, ofSecond])

theorem Instant.isWhole_epoch : Instant.epoch.IsWhole := isWhole_ofSecond 0

/-- An outcome whose parts are kept as they are. -/
def Outcome.IsWhole : Outcome → Prop
  | .completed v => v.IsKept
  | .retry error available => Column.readable error = error ∧ available.IsWhole
  | .failed error => Column.readable error = error
  | .cancelled reason => Column.readable reason = reason

namespace Job

/-- A job that is loaded as it is stored. -/
structure IsWhole (j : Job) : Prop where
  isKept : j.IsKept
  created : j.created.IsWhole
  available : j.available.IsWhole
  started : ∀ t ∈ j.started, t.IsWhole
  ended : ∀ t ∈ j.ended, t.IsWhole
  finished : ∀ t ∈ j.finished, t.IsWhole
  events : ∀ e ∈ j.events, e.timestamp.OnMinute

variable {j : Job}

theorem IsWhole.kept (h : j.IsWhole) : j.kept = j := by
  have hsome {t : Option Instant} (ht : ∀ x ∈ t, x.IsWhole) : t.map Instant.stamped = t := by
    cases t with
    | none => rfl
    | some t => rw [Option.map_some, (ht t rfl).stamped]
  rw [Job.kept, h.created.stamped, h.available.stamped, hsome h.started, hsome h.ended,
    hsome h.finished, Event.map_settled_eq_iff.mpr h.events]

theorem IsWhole.toJob (h : j.IsWhole) : (Row.ofJob j).toJob = .ok j := by
  rw [Row.toJob_ofJob h.isKept, h.kept]

theorem isWhole_new {id : JobId} {name label : String} {v : Json} {created available : Instant}
    (hname : Column.readable name = name) (hlabel : Column.readable label = label)
    (hdata : v.IsKept) (hcreated : created.IsWhole) (havailable : available.IsWhole) :
    (Job.new id name label v created available).IsWhole where
  isKept :=
    { data := hdata
      result := fun _ h => by cases h
      created := hcreated.hasStamp
      available := havailable.hasStamp
      started := fun _ h => by cases h
      ended := fun _ h => by cases h
      finished := fun _ h => by cases h
      name := hname
      label := hlabel
      error := fun _ h => by cases h
      reason := fun _ h => by cases h }
  created := hcreated
  available := havailable
  started := fun _ h => by cases h
  ended := fun _ h => by cases h
  finished := fun _ h => by cases h
  events := List.forall_mem_singleton.mpr hcreated.onMinute

theorem isWhole_sample : Job.sample.IsWhole :=
  isWhole_new (by rfl) (by rfl) null_isKept Instant.isWhole_epoch Instant.isWhole_epoch

/-! ## Changes of a job -/

/-- A job whose row was claimed. -/
def withClaim (j : Job) (now : Instant) : Job :=
  { j with
    status := .dequeued
    started := some now
    ended := none
    attempts := j.attempts + 1
    events := j.events ++ [⟨now, .dequeued, ""⟩] }

/-- A job whose attempt has ended. -/
def withOutcome (j : Job) (o : Outcome) (now : Instant) : Job :=
  let j := { j with status := o.status, ended := some now, events := j.events ++ [o.event now] }
  match o with
  | .completed v => { j with finished := some now, result := some v }
  | .retry error available => { j with error := some error, available }
  | .failed error => { j with finished := some now, error := some error }
  | .cancelled reason => { j with finished := some now, reason := some reason }

/-- A job whose claim was taken back. -/
def withoutClaim (j : Job) (now : Instant) : Job :=
  { j with
    status := .enqueued
    available := now
    events := j.events ++ [⟨now, .enqueued, Row.lifetimeExceeded⟩] }

variable {now : Instant} {o : Outcome}

theorem events_concat {e : Event} (h : j.IsWhole) (he : e.timestamp.OnMinute) :
    ∀ e' ∈ j.events ++ [e], e'.timestamp.OnMinute := by
  rw [List.forall_mem_append]
  exact ⟨h.events, List.forall_mem_singleton.mpr he⟩

theorem IsWhole.withClaim (h : j.IsWhole) (hnow : now.IsWhole) : (j.withClaim now).IsWhole :=
  { h with
    isKept :=
      { h.isKept with
        started := fun t ht => Option.some.inj ht ▸ hnow.hasStamp
        ended := fun _ h => by cases h }
    started := fun t ht => Option.some.inj ht ▸ hnow
    ended := fun _ h => by cases h
    events := events_concat h hnow.onMinute }

theorem IsWhole.withoutClaim (h : j.IsWhole) (hnow : now.IsWhole) :
    (j.withoutClaim now).IsWhole :=
  { h with
    isKept := { h.isKept with available := hnow.hasStamp }
    available := hnow
    events := events_concat h hnow.onMinute }

theorem IsWhole.withOutcome (h : j.IsWhole) (ho : o.IsWhole) (hnow : now.IsWhole) :
    (j.withOutcome o now).IsWhole := by
  have hended : ∀ t ∈ some now, t.IsWhole := fun t ht => Option.some.inj ht ▸ hnow
  have hstamp : ∀ t ∈ some now, t.HasStamp := fun t ht => (hended t ht).hasStamp
  have hevents := events_concat h (e := o.event now) hnow.onMinute
  cases o with
  | completed v =>
      exact
        { h with
          isKept :=
            { h.isKept with
              result := fun w hw => Option.some.inj hw ▸ ho
              ended := hstamp
              finished := hstamp }
          ended := hended
          finished := hended
          events := hevents }
  | retry error available =>
      exact
        { h with
          isKept :=
            { h.isKept with
              ended := hstamp
              available := ho.2.hasStamp
              error := fun s hs => Option.some.inj hs ▸ ho.1 }
          ended := hended
          available := ho.2
          events := hevents }
  | failed error =>
      exact
        { h with
          isKept :=
            { h.isKept with
              ended := hstamp
              finished := hstamp
              error := fun s hs => Option.some.inj hs ▸ ho }
          ended := hended
          finished := hended
          events := hevents }
  | cancelled reason =>
      exact
        { h with
          isKept :=
            { h.isKept with
              ended := hstamp
              finished := hstamp
              reason := fun s hs => Option.some.inj hs ▸ ho }
          ended := hended
          finished := hended
          events := hevents }

end Job

/-! ## Changes of a row -/

namespace Row

variable {j : Job} {now : Instant} {o : Outcome}

theorem claimed_ofJob (hroom : j.attempts < 4294967295) (now : Instant) :
    (ofJob j).claimed now = some (ofJob (j.withClaim now)) := by
  have hattempts : ((j.attempts + 1).toNat : Int) = j.attempts.toNat + 1 := by
    have hone : (1 : UInt32).toNat = 1 := rfl
    have hlt : j.attempts.toNat < 4294967295 := UInt32.lt_iff_toNat_lt.mp hroom
    rw [UInt32.toNat_add, hone]
    omega
  rw [claimed_text rfl, ofJob, ofJob, Job.withClaim, hattempts]
  rfl

theorem finishedWith_ofJob (j : Job) (o : Outcome) (now : Instant) :
    (ofJob j).finishedWith o now = some (ofJob (j.withOutcome o now)) := by
  rw [finishedWith_text rfl]
  cases o <;> rfl

theorem requeued_ofJob (j : Job) (now : Instant) :
    (ofJob j).requeued now = some (ofJob (j.withoutClaim now)) := requeued_text rfl now

/-- A row may be claimed if its job is eligible. -/
theorem isClaimable_ofJob_iff (hj : j.IsWhole) (hnow : now.IsWhole) {name : String} :
    (ofJob j).isClaimable name (Stamp.ofInstant now) ↔ j.name = name ∧ j.isEligible now := by
  have havailable : (ofJob j).available = ofInstant j.available := rfl
  rw [isClaimable, Bool.and_eq_true, Bool.and_eq_true, is_iff, hasStatus_of_status rfl, and_assoc,
    havailable, upTo_iff hnow.hasStamp, hj.available.stamped, hnow.settled, Job.isEligible,
    Bool.and_eq_true, beq_iff_eq, decide_eq_true_eq]
  exact and_congr_left' (Column.text.injEq _ _ ▸ Iff.rfl)

/-- A claim is old if its job was started before. -/
theorem isStale_ofJob {start startedBefore : Instant} (hstart : j.started = some start)
    (hwhole : start.IsWhole) (hbefore : startedBefore.IsWhole) (hdeq : j.status = .dequeued)
    (hlt : start < startedBefore) : (ofJob j).isStale j.name (Stamp.ofInstant startedBefore) := by
  have hstarted : (ofJob j).started = ofInstant start := congrArg ofInstant? hstart
  rw [isStale, Bool.and_eq_true, Bool.and_eq_true, is_iff, hasStatus_of_status rfl, hstarted,
    ofInstant, Column.before_text, decide_eq_true_eq, Stamp.ofInstant_lt_iff, hwhole.stamped,
    hbefore.stamped]
  exact ⟨⟨rfl, hdeq⟩, hlt⟩

/-- A job that is not claimed, or is of another name, has no old claim. -/
theorem not_isStale_ofJob {name : String} (h : j.status = .dequeued → j.name ≠ name)
    (stamp : String) : (ofJob j).isStale name stamp = false := by
  refine Bool.eq_false_iff.mpr fun hstale => ?_
  rw [isStale, Bool.and_eq_true, Bool.and_eq_true, is_iff, hasStatus_of_status rfl] at hstale
  exact h hstale.1.2 (Column.text.inj hstale.1.1)

end Row

/-! ## Operations -/

namespace Store

/-- A database that holds the rows of jobs. -/
def ofJobs (js : List Job) : Store := ⟨.current, js.map Row.ofJob⟩

theorem ofJobs_split (pre post : List Job) (j : Job) : ofJobs (pre ++ j :: post) =
    ⟨.current, pre.map Row.ofJob ++ Row.ofJob j :: post.map Row.ofJob⟩ := by
  rw [ofJobs, List.map_append, List.map_cons]

theorem keyed_ofJobs {js : List Job} (hids : (js.map Job.id).Nodup) : Keyed (ofJobs js).rows where
  ids r hr := by
    obtain ⟨j, -, rfl⟩ := List.mem_map.mp hr
    exact ⟨j.id, rfl⟩
  nodup := by
    have hinj : Function.Injective fun id : JobId => Column.text id.text := fun a b h =>
      JobId.text_inj.mp (Column.text.inj h)
    have hmap : (ofJobs js).rows.map Row.id = (js.map Job.id).map fun id => .text id.text := by
      rw [ofJobs, List.map_map, List.map_map]
      rfl
    rw [hmap]
    exact hids.map hinj

variable {pre post : List Job} {j : Job} {name : String} {now : Instant}

theorem after_insert_ofJobs {js : List Job} (hids : (js.map Job.id).Nodup) :
    Store.empty.after (js.map .insert) = ofJobs js :=
  after_inserts Schema.hasJobs_current (fun _ _ => rfl) hids

theorem row?_ofJobs {js : List Job} (hids : (js.map Job.id).Nodup) (hj : j ∈ js) :
    (ofJobs js).row? j.id = some (.ofJob j) :=
  (rowOf?_eq_some_iff (keyed_ofJobs hids)).mpr ⟨List.mem_map_of_mem hj, rfl⟩

variable (pre post)

/-- A claim takes the only job that is eligible. -/
theorem claimable_ofJobs (hwhole : ∀ i ∈ pre ++ j :: post, i.IsWhole) (hnow : now.IsWhole)
    (hopen : j.name = name ∧ j.isEligible now)
    (hothers : ∀ i ∈ pre ++ post, ¬ (i.name = name ∧ i.isEligible now)) :
    (ofJobs (pre ++ j :: post)).claimable name now = some (.ofJob j) := by
  have hrows := congrArg rows (ofJobs_split pre post j)
  have hclosed (js : List Job) (hjs : ∀ i ∈ js, i ∈ pre ++ post) :
      (js.map Row.ofJob).filter (·.isClaimable name (Stamp.ofInstant now)) = [] := by
    rw [List.filter_eq_nil_iff]
    intro r hr hclaimable
    obtain ⟨i, hi, rfl⟩ := List.mem_map.mp hr
    have hmem : i ∈ pre ++ j :: post := by
      have := hjs i hi
      simp only [List.mem_append, List.mem_cons] at this ⊢
      tauto
    exact hothers i (hjs i hi) ((Row.isClaimable_ofJob_iff (hwhole i hmem) hnow).mp hclaimable)
  have hj : j.IsWhole := hwhole j (by simp)
  rw [claimable, hrows, List.filter_append, hclosed pre fun i hi => List.mem_append_left _ hi,
    List.filter_cons, if_pos ((Row.isClaimable_ofJob_iff hj hnow).mpr hopen),
    hclosed post fun i hi => List.mem_append_right _ hi]
  rfl

/-- The row of a job is in one place. -/
theorem eq_of_ofJobs_split (hids : ((pre ++ j :: post).map Job.id).Nodup) {before behind : List Row}
    (h : (ofJobs (pre ++ j :: post)).rows = before ++ Row.ofJob j :: behind) :
    before = pre.map Row.ofJob ∧ behind = post.map Row.ofJob := by
  have hne {js : List Job} (hjs : j.id ∉ js.map Job.id) : Row.ofJob j ∉ js.map Row.ofJob := by
    intro hmem
    obtain ⟨i, hi, heq⟩ := List.mem_map.mp hmem
    have hid : i.id = j.id := JobId.text_inj.mp (Column.text.inj (congrArg Row.id heq))
    exact hjs (hid ▸ List.mem_map_of_mem hi)
  rw [List.map_append, List.map_cons, List.nodup_middle, List.nodup_cons, List.mem_append,
    not_or] at hids
  rw [ofJobs_split] at h
  obtain ⟨hbefore, -, hbehind⟩ :=
    (List.append_cons_inj_of_notMem (hne hids.1.1) (hne hids.1.2)).mp h
  exact ⟨hbefore.symm, hbehind.symm⟩

/-- A claim answers with the job that it takes. -/
theorem claim_ofJobs (hids : ((pre ++ j :: post).map Job.id).Nodup) (hj : j.IsWhole)
    (hnow : now.IsWhole)
    (hnext : (ofJobs (pre ++ j :: post)).claimable name now = some (.ofJob j))
    (hroom : j.attempts < 4294967295) :
    (ofJobs (pre ++ j :: post)).claim name now =
      (.ok (some (j.withClaim now)), ofJobs (pre ++ j.withClaim now :: post)) := by
  rw [claim_of_split (keyed_ofJobs hids) Schema.hasJobs_current hnext
    (congrArg rows (ofJobs_split pre post j)) (Row.claimed_ofJob hroom now),
    (hj.withClaim hnow).toJob, ofJobs_split pre post (j.withClaim now)]
  rfl

/-- The attempt that a job is in is ended. -/
theorem finish_ofJobs (hids : ((pre ++ j :: post).map Job.id).Nodup) (hdeq : j.status = .dequeued)
    (o : Outcome) (now : Instant) :
    (ofJobs (pre ++ j :: post)).finish j.id j.attempts o now =
      (.ok true, ofJobs (pre ++ j.withOutcome o now :: post)) := by
  have hk := keyed_ofJobs hids
  have hrows := congrArg rows (ofJobs_split pre post j)
  have hrow := row?_ofJobs hids (List.mem_append_right pre List.mem_cons_self)
  have hheld : (Row.ofJob j).isInAttempt j.attempts :=
    Row.isInAttempt_iff.mpr ⟨congrArg Row.ofStatus hdeq, rfl⟩
  have hnew := Row.finishedWith_ofJob j o now
  have hch : Change (.finish j.id j.attempts o now) (.ofJob j) _ :=
    .finished (is_iff.mpr rfl) hheld hnew
  rw [finish_of_row? hk Schema.hasJobs_current hrow hheld hnew,
    replace_of_split hk hrows hch.id_eq, ofJobs_split pre post (j.withOutcome o now)]
  rfl

/-- The only claim of a name is taken back, if it is old. -/
theorem requeue_ofJobs {start startedBefore : Instant}
    (hothers : ∀ i ∈ pre ++ post, i.status = .dequeued → i.name ≠ j.name)
    (hstart : j.started = some start) (hwhole : start.IsWhole) (hbefore : startedBefore.IsWhole)
    (hdeq : j.status = .dequeued) (hlt : start < startedBefore) (now : Instant) :
    ((ofJobs (pre ++ j :: post)).requeue j.name startedBefore now).2 =
      ofJobs (pre ++ j.withoutClaim now :: post) := by
  have hrows := congrArg rows (ofJobs_split pre post j)
  have hfresh : ∀ r ∈ pre.map Row.ofJob ++ post.map Row.ofJob,
      r.isStale j.name (Stamp.ofInstant startedBefore) = false := by
    rw [← List.map_append]
    intro r hr
    obtain ⟨i, hi, rfl⟩ := List.mem_map.mp hr
    exact Row.not_isStale_ofJob (hothers i hi) _
  rw [requeue_of_split _ _ Schema.hasJobs_current hrows hfresh
    (Row.isStale_ofJob hstart hwhole hbefore hdeq hlt) (Row.requeued_ofJob j now),
    ofJobs_split pre post (j.withoutClaim now)]
  rfl

end Store

end JobQueue
