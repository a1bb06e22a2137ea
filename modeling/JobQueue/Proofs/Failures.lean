import JobQueue.Proofs.Producers
import JobQueue.Proofs.Readable

/-!
# JobQueue.Proofs.Failures

What an operation that fails leaves behind.

- On a store that is reached with payloads that can be stored and with attempts that can
  be counted, everything is as it was.
- Only a claim can do otherwise, for it reads the row after it has claimed it: where the
  payload is nested too deeply, the claim fails and the job stays claimed
  (`claim_alone_deep`).
- A producer's request that fails leaves the store as it was, whatever the store
  (`Queue.enqueue_error`, `Queue.enqueueBlueprint_error`).
-/

namespace JobQueue

/-- The error of an answer, if it is one. -/
def failure? {α : Type} : Except DatabaseError α → Option DatabaseError
  | .ok _ => none
  | .error e => some e

/-- The error with which a call is answered, if there is one. -/
def Call.error? (c : Call) (s : Store) : Option DatabaseError :=
  match c with
  | .insert j => failure? (s.insert j).1
  | .insertIfAbsent j finishedAfter => failure? (s.insertIfAbsent j finishedAfter).1
  | .claim name now => failure? (s.claim name now).1
  | .finish id attempt o now => failure? (s.finish id attempt o now).1
  | .requeue name startedBefore now => failure? (s.requeue name startedBefore now).1
  | .get id => failure? (s.get id).1
  | .list name status => failure? (s.list name status).1
  | .delete id => failure? (s.delete id).1
  | .deleteFinished cutoff => failure? (s.deleteFinished cutoff).1
  | .migrate fill => failure? (s.migrate fill).1

/-! ## Answers that go well -/

theorem requeuedId_of_id {r : Row} {id : JobId} (h : r.id = .text id.text) :
    Store.requeuedId r = .ok id := by
  rw [Store.requeuedId, h, Column.read?, id.readable_text]
  simp only [Row.readId, JobId.parse_text]
  rfl

/-- The identities of rows that have one are read. -/
theorem exists_mapM_requeuedId {rows : List Row}
    (h : ∀ r ∈ rows, ∃ id : JobId, r.id = .text id.text) :
    ∃ ids, rows.mapM Store.requeuedId = .ok ids ∧
      ∀ id, id ∈ ids ↔ ∃ r ∈ rows, r.id = .text id.text := by
  induction rows with
  | nil => exact ⟨[], rfl, by simp⟩
  | cons r rows ih =>
      obtain ⟨id, hid⟩ := h r List.mem_cons_self
      obtain ⟨ids, hids, hmem⟩ := ih fun x hx => h x (List.mem_cons_of_mem _ hx)
      refine ⟨id :: ids, ?_, fun i => ?_⟩
      · rw [List.mapM_cons, requeuedId_of_id hid, ok_bind, hids]
        rfl
      · simp [hmem, hid, JobId.text_inj, eq_comm]

/-! ## Failures -/

/-- A claim fails only where it leaves everything as it was, if what it claims is read. -/
theorem claim_of_error {s : Store} {name : String} {now : Instant}
    (hread : ∀ r r', r ∈ s.rows → Change (.claim name now) r r' → ∃ j, r'.toJob = .ok j)
    {e : DatabaseError} (h : (s.claim name now).1 = .error e) : (s.claim name now).2 = s := by
  rcases s.claim_cases name now with ⟨a, -, he⟩ | ⟨r, r', hr, hnew, he⟩
  · rw [he]
  · obtain ⟨hmem, hopen⟩ := Store.mem_of_claimable hr
    obtain ⟨j, hj⟩ := hread r r' hmem (.claimed hopen hnew)
    rw [he, hj] at h
    cases h

/-- Taking claims back fails only where it leaves everything as it was. -/
theorem requeue_of_error {s : Store} (hk : Keyed s.rows) {name : String}
    {startedBefore now : Instant} {e : DatabaseError}
    (h : (s.requeue name startedBefore now).1 = .error e) :
    (s.requeue name startedBefore now).2 = s := by
  rcases s.requeue_cases name startedBefore now with ⟨e', he⟩ | ⟨-, he⟩
  · rw [he]
  · obtain ⟨ids, hids, -⟩ := exists_mapM_requeuedId fun r hr => hk.ids r (List.mem_filter.mp hr).1
    rw [he, hids] at h
    cases h

theorem error_of_failure? {α : Type} {x : Except DatabaseError α} {e : DatabaseError}
    (h : failure? x = some e) : x = .error e := by
  cases x with
  | error e' => rw [Option.some.inj h]
  | ok a => cases h

/-- On a store that is reached with payloads that can be stored and attempts that can be
counted, an operation that fails leaves everything as it was, whatever its arguments. -/
theorem next_of_error {cs : List Call} (hcs : AllNew cs) (hdata : AllStorable cs)
    (hclaims : FewClaims cs) {c : Call} {e : DatabaseError}
    (h : c.error? (Store.empty.after cs) = some e) :
    c.next (Store.empty.after cs) = Store.empty.after cs := by
  have hkeyed := keyed_after cs keyed_empty
  have hschema := schema_after cs (s := .empty) rfl
  have hread {name : String} {now : Instant} (r r' : Row)
      (hr : r ∈ (Store.empty.after cs).rows) (hch : Change (.claim name now) r r') :=
    exists_toJob_of_claim hcs hdata hclaims hr hch
  generalize Store.empty.after cs = s at h hkeyed hschema hread ⊢
  cases c with
  | insert j =>
      rcases s.insert_cases j with ⟨e', he⟩ | ⟨-, he⟩
      · rw [Call.next, he]
      · rw [Call.error?, he] at h
        cases h
  | insertIfAbsent j t =>
      rcases s.insertIfAbsent_cases j t with ⟨a, -, he⟩ | ⟨-, he⟩
      · rw [Call.next, he]
      · rw [Call.error?, he] at h
        cases h
  | claim name now => exact claim_of_error hread (error_of_failure? h)
  | finish id attempt o now =>
      rcases s.finish_cases id attempt o now with ⟨a, -, he⟩ | ⟨r, r', -, -, -, -, he⟩
      · rw [Call.next, he]
      · rw [Call.error?, he] at h
        cases h
  | requeue name startedBefore now => exact requeue_of_error hkeyed (error_of_failure? h)
  | get id => exact s.get_snd id
  | list name status => exact s.list_snd name status
  | delete id =>
      rcases s.delete_cases id with ⟨e', he⟩ | he
      · rw [Call.next, he]
      · rw [Call.error?, he] at h
        cases h
  | deleteFinished cutoff =>
      rcases s.deleteFinished_cases cutoff with ⟨e', he⟩ | he
      · rw [Call.next, he]
      · rw [Call.error?, he] at h
        cases h
  | migrate fill =>
      rw [Call.next, Store.migrate, hschema,
        Schema.migrate_of_isCurrent fill Schema.isCurrent_current, ← hschema]

/-- For instance where a job is inserted twice. -/
theorem next_of_error_twice :
    (Call.insert .sample).error? (Store.empty.after [.insert .sample]) =
        some (.statement .insert .duplicateId) ∧
      (Call.insert .sample).next (Store.empty.after [.insert .sample]) =
        Store.empty.after [.insert .sample] := by
  have hnew : AllNew [.insert .sample] := jobs_insert sample_isNew
  have hdata : AllStorable [.insert .sample] := jobs_insert sample_storable
  have hclaims : FewClaims [.insert .sample] := fewClaims_of_length (by decide)
  have herror : (Call.insert .sample).error? (Store.empty.after [.insert .sample]) =
      some (.statement .insert .duplicateId) := by
    have hid : (Store.mk .current [Row.ofJob .sample]).hasId Job.sample.id.text = true := by
      simp [Store.hasId, Row.ofJob, Column.is]
    rw [after_insert, Call.error?, Store.insert, if_pos Schema.hasJobs_current, Store.addRow,
      if_pos hid]
    rfl
  exact ⟨herror, next_of_error hnew hdata hclaims herror⟩

/-! ## Payloads that are too deep -/

/-- A payload that is too deep is stored, but the claim of its job fails and leaves the
job claimed. -/
theorem claim_alone_deep {j : Job} {start : Instant} (hj : j.IsNew)
    (havailable : (Row.ofInstant j.available).upTo (Stamp.ofInstant start))
    (hfits : j.data.Fits) (hdepth : Json.depthLimit < j.data.depth) :
    ∃ e, (Store.mk .current [Row.ofJob j]).claim j.name start =
      (.error e, ⟨.current, [claimedRow j start]⟩) := by
  have hparse : ∀ w, Json.parse j.data.render ≠ .ok w := fun w hw =>
    absurd ((Json.exists_parse_iff hfits).mp ⟨w, hw⟩) (Nat.not_le.mpr hdepth)
  have hclaim := claim_alone hj havailable
  cases hread : (claimedRow j start).toJob with
  | error f =>
      rw [hread] at hclaim
      exact ⟨_, hclaim⟩
  | ok i =>
      have hdata := (Row.reads_of_toJob hread).data
      obtain ⟨text, htext, hdocument⟩ := bind_eq_ok hdata
      have hwhole : Row.readRequired 3 (.text j.data.render) = .ok j.data.render :=
        Row.readRequired_text (Column.readable_of_not_mem (Json.nul_not_mem_render _))
      cases htext.symm.trans hwhole
      rw [Row.readDocument] at hdocument
      cases hp : Json.parse j.data.render with
      | error f =>
          rw [hp] at hdocument
          cases hdocument
      | ok w => exact absurd hp (hparse w)

/-- For instance of a payload of 128 arrays within each other, which is accepted. -/
theorem claim_loses_deep_payload : ∃ j s e store,
    Queue.enqueue .document "mail" (.nested 128) .zero ⟨.reliable .empty, .still .epoch⟩ =
        (.ok j, s) ∧
      s.store.claim "mail" .epoch = (.error e, store) ∧ store ≠ s.store ∧
      ∃ r ∈ store.rows, r.hasStatus .dequeued := by
  have hfits (n : Nat) : (Json.nested n).Fits := by
    induction n with
    | zero => trivial
    | succ n ih => exact ⟨ih, trivial⟩
  obtain ⟨e, he⟩ := claim_alone_deep
    (j := .new (.numbered 0) "mail" "" (.nested 128) .epoch .epoch) rfl
    sample_available (hfits 128) (by rw [Job.new, Json.depth_nested]; decide)
  refine ⟨_, _, e, _, rfl, he, fun heq => ?_, _, List.mem_singleton_self _, rfl⟩
  have hrow := List.head_eq_of_cons_eq (congrArg Store.rows heq)
  exact absurd (congrArg Row.attempts hrow) (by decide)

/-! ## Producers -/

namespace Link

variable {l : Link} {j : Job} {e : DatabaseError}

/-- A link that fails to insert a job leaves the store as it was. -/
theorem insert_error (h : (l.insert j).1 = .error e) : (l.insert j).2.store = l.store := by
  unfold insert at h ⊢
  split
  · rfl
  · next hrefusals =>
      rw [hrefusals] at h
      rcases l.store.insert_cases j with ⟨e', he⟩ | ⟨-, he⟩
      · rw [lift, he]
      · simp only [lift, he] at h
        cases h

/-- So does one that fails to insert a job unless another one keeps it away. -/
theorem insertIfAbsent_error {t : Instant} (h : (l.insertIfAbsent j t).1 = .error e) :
    (l.insertIfAbsent j t).2.store = l.store := by
  unfold insertIfAbsent at h ⊢
  split
  · rfl
  · next hrefusals =>
      rw [hrefusals] at h
      rcases l.store.insertIfAbsent_cases j t with ⟨a, -, he⟩ | ⟨-, he⟩
      · rw [lift, he]
      · simp only [lift, he] at h
        cases h

end Link

namespace Queue

theorem of_mapError {α : Type} {x : Except DatabaseError α} {e : EnqueueError}
    (h : x.mapError .database = .error e) : ∃ e', x = .error e' := by
  cases x with
  | error e' => exact ⟨e', rfl⟩
  | ok a => cases h

theorem of_map {α β : Type} {f : α → β} {x : Except EnqueueError α} {e : EnqueueError}
    (h : x.map f = .error e) : x = .error e := by
  cases x with
  | error e' =>
      cases h
      rfl
  | ok a => cases h

variable {s : Session} {e : EnqueueError}

theorem insert_error {j : Job} (h : (insert j s).1 = .error e) :
    (insert j s).2.store = s.store := by
  obtain ⟨e', he'⟩ := of_mapError h
  exact Link.insert_error he'

theorem insertIfAbsent_error {j : Job} {t : Instant} (h : (insertIfAbsent j t s).1 = .error e) :
    (insertIfAbsent j t s).2.store = s.store := by
  obtain ⟨e', he'⟩ := of_mapError h
  exact Link.insertIfAbsent_error he'

/-- A request for a job of a blueprint that fails leaves the store as it was, with and
without an isolation. -/
theorem enqueueBlueprint_error {name : String} {b : Blueprint} {isolation : Option Duration}
    (h : (enqueueBlueprint name b isolation s).1 = .error e) :
    (enqueueBlueprint name b isolation s).2.store = s.store := by
  have hdraft := draft_store name b s
  unfold enqueueBlueprint at h ⊢
  split
  · next heq =>
      rw [heq] at hdraft
      exact hdraft
  · next j s' heq =>
      rw [heq] at h hdraft
      cases isolation with
      | none => exact (insert_error (of_map h)).trans hdraft
      | some window => exact (insertIfAbsent_error (of_map h)).trans hdraft

/-- A request for a job of a payload that fails leaves the store as it was. -/
theorem enqueue_error {α : Type} {f : Format α} {name : String} {payload : α} {delay : Duration}
    (h : (enqueue f name payload delay s).1 = .error e) :
    (enqueue f name payload delay s).2.store = s.store := by
  unfold enqueue at h ⊢
  split
  · rfl
  · next b hb =>
      have hdraft := draft_store name b s
      rw [hb] at h
      dsimp only at h
      split
      · next heq =>
          rw [heq] at hdraft
          exact hdraft
      · next j s' heq =>
          rw [heq] at h hdraft
          exact (insert_error (of_map h)).trans hdraft

end Queue

end JobQueue
