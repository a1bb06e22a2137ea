import JobQueue.Proofs.Journal
import JobQueue.Proofs.Rows

/-!
# JobQueue.Proofs.Progress

What it takes for an operation to have its effect, one lemma for each, what stands in the
way of it, and what becomes of a job that is alone: it can be claimed, and then be finished with
any outcome (`life`). A new database always has what it takes: it keeps its schema
(`schema_after`).
-/

namespace JobQueue

namespace Store

variable {s : Store}

theorem insert_of_absent {j : Job} (hjobs : s.schema.hasJobs) (hid : s.hasId j.id.text = false) :
    s.insert j = (.ok (), { s with rows := s.rows ++ [Row.ofJob j] }) := by
  rw [insert, if_pos hjobs, addRow, if_neg (by simp [hid])]

theorem claim_of_claimable {name : String} {now : Instant} {r r' : Row}
    (hjobs : s.schema.hasJobs) (hr : s.claimable name now = some r) (hid : r.id.isNull = false)
    (hnew : r.claimed now = some r') :
    s.claim name now = ((r'.toJob.mapError .row).map some, s.replace r') := by
  rw [claim, if_pos hjobs, hr]
  simp only [hid, hnew]
  rfl

theorem finish_of_held {id : JobId} {n : UInt32} {o : Outcome} {now : Instant} {r r' : Row}
    (hjobs : s.schema.hasJobs)
    (hr : s.rows.find? (fun r => r.id.is id.text && r.isInAttempt n) = some r)
    (hnew : r.finishedWith o now = some r') :
    s.finish id n o now = (.ok true, s.replace r') := by
  rw [finish, if_pos hjobs, hr]
  simp only [hnew]

/-- The end of the attempt that a job is in is recorded. -/
theorem finish_of_row? (hk : Keyed s.rows) (hjobs : s.schema.hasJobs) {id : JobId} {n : UInt32}
    {r r' : Row} (hr : s.row? id = some r) (hheld : r.isInAttempt n) {o : Outcome}
    {now : Instant} (hnew : r.finishedWith o now = some r') :
    s.finish id n o now = (.ok true, s.replace r') := by
  obtain ⟨hmem, hid⟩ := (rowOf?_eq_some_iff hk).mp hr
  refine finish_of_held hjobs ?_ hnew
  cases hfind : s.rows.find? fun r => r.id.is id.text && r.isInAttempt n with
  | none =>
      have hnot := List.find?_eq_none.mp hfind r hmem
      rw [is_iff.mpr hid, hheld] at hnot
      exact absurd rfl hnot
  | some x =>
      have hx := List.find?_some hfind
      rw [Bool.and_eq_true] at hx
      rw [hk.eq_of_id_eq (List.mem_of_find?_eq_some hfind) hmem ((is_iff.mp hx.1).trans hid.symm)]

/-- Claims that can all be taken back are. -/
theorem requeue_of_stale {name : String} {startedBefore now : Instant} (hjobs : s.schema.hasJobs)
    (h : ∀ r ∈ s.rows, r.isStale name (Stamp.ofInstant startedBefore) → (r.requeued now).isSome) :
    s.requeue name startedBefore now =
      ((s.rows.filter (·.isStale name (Stamp.ofInstant startedBefore))).mapM requeuedId,
        { s with
          rows := s.rows.map fun r =>
            if r.isStale name (Stamp.ofInstant startedBefore) then (r.requeued now).getD r
            else r }) := by
  have hrows : s.rows.mapM (fun r =>
      if r.isStale name (Stamp.ofInstant startedBefore) then r.requeued now else some r) =
        some (s.rows.map fun r =>
          if r.isStale name (Stamp.ofInstant startedBefore) then (r.requeued now).getD r
          else r) := by
    rw [mapM_of_isSome fun r hr => ?_, map_getD_requeued]
    by_cases hstale : r.isStale name (Stamp.ofInstant startedBefore)
    · rw [if_pos hstale]
      exact h r hr hstale
    · rw [if_neg hstale]
      rfl
  rw [requeue, if_pos hjobs]
  simp only [hrows]

/-- The only claim that is old enough is taken back. -/
theorem requeue_of_split {name : String} {startedBefore now : Instant} (pre post : List Row)
    {r r' : Row} (hjobs : s.schema.hasJobs) (h : s.rows = pre ++ r :: post)
    (hothers : ∀ x ∈ pre ++ post, x.isStale name (Stamp.ofInstant startedBefore) = false)
    (hstale : r.isStale name (Stamp.ofInstant startedBefore)) (hnew : r.requeued now = some r') :
    (s.requeue name startedBefore now).2 = { s with rows := pre ++ r' :: post } := by
  have hkeep {rows : List Row}
      (hrows : ∀ x ∈ rows, x.isStale name (Stamp.ofInstant startedBefore) = false) :
      (rows.map fun x => if x.isStale name (Stamp.ofInstant startedBefore) then
        (x.requeued now).getD x else x) = rows :=
    (List.map_congr_left fun x hx => if_neg (by simp [hrows x hx])).trans (List.map_id rows)
  rw [requeue_of_stale hjobs fun x hx hx' => ?_]
  · dsimp only
    rw [h, List.map_append, List.map_cons, if_pos hstale, hnew, Option.getD_some,
      hkeep fun x hx => hothers x (List.mem_append_left _ hx),
      hkeep fun x hx => hothers x (List.mem_append_right _ hx)]
  · rw [h, List.mem_append, List.mem_cons] at hx
    rcases hx with hx | rfl | hx
    · rw [hothers x (List.mem_append_left _ hx)] at hx'
      cases hx'
    · rw [hnew]
      rfl
    · rw [hothers x (List.mem_append_right _ hx)] at hx'
      cases hx'

/-! What stands in the way of an effect leaves the store as it is. -/

theorem claim_of_none {name : String} {now : Instant} (hjobs : s.schema.hasJobs)
    (hr : s.claimable name now = none) : s.claim name now = (.ok none, s) := by
  rw [claim, if_pos hjobs, hr]

theorem claim_of_null {name : String} {now : Instant} {r : Row} (hjobs : s.schema.hasJobs)
    (hr : s.claimable name now = some r) (hid : r.id.isNull) :
    s.claim name now = (.ok none, s) := by
  rw [claim, if_pos hjobs, hr]
  exact if_pos hid

theorem claim_of_malformed {name : String} {now : Instant} {r : Row} (hjobs : s.schema.hasJobs)
    (hr : s.claimable name now = some r) (hid : r.id.isNull = false)
    (hnew : r.claimed now = none) : s.claim name now = s.fail .claim .malformedLog := by
  rw [claim, if_pos hjobs, hr]
  simp only [hid, hnew]
  rfl

theorem finish_of_none {id : JobId} {n : UInt32} {o : Outcome} {now : Instant}
    (hjobs : s.schema.hasJobs)
    (hr : s.rows.find? (fun r => r.id.is id.text && r.isInAttempt n) = none) :
    s.finish id n o now = (.ok false, s) := by
  rw [finish, if_pos hjobs, hr]

theorem finish_of_malformed {id : JobId} {n : UInt32} {o : Outcome} {now : Instant} {r : Row}
    (hjobs : s.schema.hasJobs)
    (hr : s.rows.find? (fun r => r.id.is id.text && r.isInAttempt n) = some r)
    (hnew : r.finishedWith o now = none) :
    s.finish id n o now = s.fail .finish .malformedLog := by
  rw [finish, if_pos hjobs, hr]
  simp only [hnew]

/-- One claim that cannot be taken back keeps all others. -/
theorem requeue_of_malformed {name : String} {startedBefore now : Instant} {r : Row}
    (hjobs : s.schema.hasJobs) (hr : r ∈ s.rows)
    (hstale : r.isStale name (Stamp.ofInstant startedBefore)) (hnew : r.requeued now = none) :
    s.requeue name startedBefore now = s.fail .requeue .malformedLog := by
  have hnone : s.rows.mapM (fun r =>
      if r.isStale name (Stamp.ofInstant startedBefore) then r.requeued now else some r) =
        none := by
    rw [Option.eq_none_iff_forall_ne_some]
    intro rows hrows
    have hsome := (mapM_eq_some hrows).2 r hr
    rw [if_pos hstale, hnew] at hsome
    exact absurd hsome (by decide)
  rw [requeue, if_pos hjobs]
  simp only [hnone]

/-- A single row is replaced by one of the same identity. -/
theorem replace_single {schema : Schema} {r r' : Row} (h : r'.id = r.id) :
    (Store.mk schema [r]).replace r' = ⟨schema, [r']⟩ := by
  simp [replace, h]

/-- A claim takes the only row there is, if it may be claimed. -/
theorem claimable_single {schema : Schema} {r : Row} {name : String} {now : Instant}
    (h : r.isClaimable name (Stamp.ofInstant now)) :
    (Store.mk schema [r]).claimable name now = some r := by
  rw [claimable, List.filter_cons, if_pos h]
  rfl

end Store

/-! ## The schema -/

/-- A new database keeps its schema. -/
theorem schema_next {s : Store} (h : s.schema = .current) (c : Call) :
    (c.next s).schema = .current := by
  cases c with
  | insert j =>
      rcases s.insert_cases j with ⟨e, he⟩ | ⟨-, he⟩ <;> simp only [Call.next, he, h]
  | insertIfAbsent j t =>
      rcases s.insertIfAbsent_cases j t with ⟨a, -, he⟩ | ⟨-, he⟩ <;> simp only [Call.next, he, h]
  | claim name now =>
      rcases s.claim_cases name now with ⟨a, -, he⟩ | ⟨r, r', -, -, he⟩ <;>
        simp only [Call.next, he, Store.replace, h]
  | finish id attempt o now =>
      rcases s.finish_cases id attempt o now with ⟨a, -, he⟩ | ⟨r, r', -, -, -, -, he⟩ <;>
        simp only [Call.next, he, Store.replace, h]
  | requeue name startedBefore now =>
      rcases s.requeue_cases name startedBefore now with ⟨e, he⟩ | ⟨-, he⟩ <;>
        simp only [Call.next, he, h]
  | get id => rw [Call.next, Store.get_snd, h]
  | list name status => rw [Call.next, Store.list_snd, h]
  | delete id =>
      rcases s.delete_cases id with ⟨e, he⟩ | he <;> simp only [Call.next, he, h]
  | deleteFinished cutoff =>
      rcases s.deleteFinished_cases cutoff with ⟨e, he⟩ | he <;> simp only [Call.next, he, h]
  | migrate fill =>
      rw [Call.next, Store.migrate, h, Schema.migrate_of_isCurrent fill Schema.isCurrent_current]

theorem schema_after (cs : List Call) {s : Store} (h : s.schema = .current) :
    (s.after cs).schema = .current := by
  induction cs generalizing s with
  | nil => exact h
  | cons c cs ih => exact ih (schema_next h c)

/-- Whatever is called on a new store, it has jobs. -/
theorem hasJobs_after (cs : List Call) : (Store.empty.after cs).schema.hasJobs := by
  rw [schema_after cs rfl]
  exact Schema.hasJobs_current

/-- What is available at an instant is available then. -/
theorem upTo_ofInstant (t : Instant) : (Row.ofInstant t).upTo (Stamp.ofInstant t) = true := by
  simp [Row.ofInstant]

/-! ## A job that is alone -/

/-- The calls for a job that is inserted, claimed at an instant, and done at another one
with an outcome. -/
def lifeCalls (j : Job) (start : Instant) (o : Outcome) (stop : Instant) : List Call :=
  [.insert j, .claim j.name start, .finish j.id 1 o stop]

/-- The row of a new job after a claim of it. -/
def claimedRow (j : Job) (start : Instant) : Row :=
  { Row.ofJob j with
    status := Row.ofStatus .dequeued
    started := Row.ofInstant start
    attempts := 1
    events := .text (Log.text [⟨j.created, .enqueued, ""⟩, ⟨start, .dequeued, ""⟩]) }

variable {j : Job} {start : Instant}

theorem isClaimable_ofJob (hj : j.IsNew)
    (havailable : (Row.ofInstant j.available).upTo (Stamp.ofInstant start)) :
    (Row.ofJob j).isClaimable j.name (Stamp.ofInstant start) = true := by
  have hstatus : (Row.ofJob j).hasStatus .enqueued := Row.hasStatus_iff.mpr (Row.status_ofJob hj)
  have hname : (Row.ofJob j).name.is j.name := by simp [Row.ofJob, Column.is]
  rw [Row.isClaimable, hname, hstatus, Bool.and_self, Bool.true_and]
  exact havailable

/-- The row of a new job is claimed. -/
theorem claimed_ofJob (hj : j.IsNew) (start : Instant) :
    (Row.ofJob j).claimed start = some (claimedRow j start) := by
  have hevents : (Row.ofJob j).events = .text (Log.text [⟨j.created, .enqueued, ""⟩]) := by
    rw [hj]
    rfl
  rw [Row.claimed_text hevents, claimedRow, hj]
  rfl

/-- A job that is alone is inserted. -/
theorem after_insert (j : Job) :
    Store.empty.after [.insert j] = ⟨.current, [Row.ofJob j]⟩ := by
  rw [Store.after_cons, Store.after_nil, Call.next,
    Store.insert_of_absent Schema.hasJobs_current rfl]
  rfl

/-- Jobs of different identities that are not there yet are inserted in their order. -/
theorem after_inserts {s : Store} (hjobs : s.schema.hasJobs) {js : List Job}
    (habsent : ∀ j ∈ js, s.hasId j.id.text = false) (hids : (js.map Job.id).Nodup) :
    s.after (js.map .insert) = { s with rows := s.rows ++ js.map Row.ofJob } := by
  induction js generalizing s with
  | nil => simp
  | cons j js ih =>
      obtain ⟨hj, hids⟩ := List.nodup_cons.mp hids
      rw [List.map_cons, Store.after_cons, Call.next,
        Store.insert_of_absent hjobs (habsent j List.mem_cons_self)]
      dsimp only
      rw [ih (s := { s with rows := s.rows ++ [Row.ofJob j] }) hjobs (fun i hi => ?_) hids]
      · rw [List.append_assoc, List.singleton_append, List.map_cons]
      · have hother := habsent i (List.mem_cons_of_mem _ hi)
        have hne : i.id ≠ j.id := fun heq => hj (heq ▸ List.mem_map_of_mem hi)
        rw [Store.hasId] at hother ⊢
        rw [List.any_append, hother, List.any_cons, List.any_nil, Bool.or_false, Bool.false_or,
          Bool.eq_false_iff, Ne, is_iff]
        exact fun heq => hne (JobId.text_inj.mp (Column.text.inj heq).symm)

/-- A job that is alone and available is claimed. -/
theorem claim_alone (hj : j.IsNew)
    (havailable : (Row.ofInstant j.available).upTo (Stamp.ofInstant start)) :
    (Store.mk .current [Row.ofJob j]).claim j.name start =
      (((claimedRow j start).toJob.mapError .row).map some, ⟨.current, [claimedRow j start]⟩) := by
  have hclaimable : (Store.mk .current [Row.ofJob j]).claimable j.name start =
      some (Row.ofJob j) := Store.claimable_single (isClaimable_ofJob hj havailable)
  rw [Store.claim_of_claimable Schema.hasJobs_current hclaimable rfl (claimed_ofJob hj start),
    Store.replace_single (show (claimedRow j start).id = (Row.ofJob j).id from rfl)]

theorem after_claim (hj : j.IsNew)
    (havailable : (Row.ofInstant j.available).upTo (Stamp.ofInstant start)) :
    Store.empty.after [.insert j, .claim j.name start] = ⟨.current, [claimedRow j start]⟩ := by
  rw [← List.singleton_append, Store.after_append, after_insert, Store.after_cons,
    Store.after_nil, Call.next, claim_alone hj havailable]

/-- A job that is alone and claimed is done with any outcome. -/
theorem finish_alone (j : Job) (start : Instant) (o : Outcome) (stop : Instant) :
    ∃ r, (Store.mk .current [claimedRow j start]).finish j.id 1 o stop =
      (.ok true, ⟨.current, [r]⟩) ∧ Change (.finish j.id 1 o stop) (claimedRow j start) r := by
  have hheld : (claimedRow j start).isInAttempt 1 := Row.isInAttempt_iff.mpr ⟨rfl, rfl⟩
  have hfind : (Store.mk .current [claimedRow j start]).rows.find?
      (fun r => r.id.is j.id.text && r.isInAttempt 1) = some (claimedRow j start) := by
    rw [List.find?_cons, hheld]
    simp [claimedRow, Row.ofJob, Column.is]
  have hnew := Row.finishedWith_text (r := claimedRow j start) rfl o stop
  have hch : Change (.finish j.id 1 o stop) (claimedRow j start) _ :=
    .finished (by simp [claimedRow, Row.ofJob, Column.is]) hheld hnew
  refine ⟨_, ?_, hch⟩
  rw [Store.finish_of_held Schema.hasJobs_current hfind hnew, Store.replace_single hch.id_eq]

/-- The last of those calls leaves what it makes of the claimed row. -/
theorem after_life (hj : j.IsNew)
    (havailable : (Row.ofInstant j.available).upTo (Stamp.ofInstant start)) {o : Outcome}
    {stop : Instant} {r : Row}
    (hfinish : (Store.mk .current [claimedRow j start]).finish j.id 1 o stop =
      (.ok true, ⟨.current, [r]⟩)) :
    Store.empty.after (lifeCalls j start o stop) = ⟨.current, [r]⟩ := by
  have hcalls : lifeCalls j start o stop =
      [.insert j, .claim j.name start] ++ [.finish j.id 1 o stop] := rfl
  rw [hcalls, Store.after_append, after_claim hj havailable, Store.after_cons, Store.after_nil,
    Call.next, hfinish]

/-- A job that is alone and available can be claimed and be done with any outcome. -/
theorem life (hj : j.IsNew)
    (havailable : (Row.ofInstant j.available).upTo (Stamp.ofInstant start)) (o : Outcome)
    (stop : Instant) :
    ∃ r, Store.empty.after (lifeCalls j start o stop) = ⟨.current, [r]⟩ ∧
      r.id = .text j.id.text ∧ r.status = Row.ofStatus o.status := by
  obtain ⟨r, hfinish, hch⟩ := finish_alone j start o stop
  exact ⟨r, after_life hj havailable hfinish, hch.id_eq, hch.enters_of_finish.status⟩

theorem allNew_life (hj : j.IsNew) (start : Instant) (o : Outcome) (stop : Instant) :
    AllNew (lifeCalls j start o stop) := by
  intro c hc i hi
  simp only [lifeCalls, List.mem_cons, List.not_mem_nil, or_false] at hc
  rcases hc with rfl | rfl | rfl
  · cases hi
    exact hj
  · cases hi
  · cases hi

/-! ## A sample -/

/-- The instant from which seconds are counted. -/
def Instant.epoch : Instant := ⟨0, 0, by decide⟩

/-- A job that is available as soon as it is made. -/
def Job.sample : Job := .new (.numbered 0) "mail" "" .null .epoch .epoch

theorem sample_isNew : Job.sample.IsNew := rfl

theorem sample_available :
    (Row.ofInstant Job.sample.available).upTo (Stamp.ofInstant .epoch) = true :=
  upTo_ofInstant .epoch

end JobQueue
