import JobQueue.Proofs.Failures

/-!
# JobQueue.Proofs.Permanence

What a row never loses, as long as it is there.

- A call that changes a row adds one event to its log and gives it another status. What the
  row says about its job stays, attempts are only counted up, and what belongs to the end of
  the job is written once (`Change.grows`).
- So over any number of calls the log of a job is only added to, and what is done stays as
  it is (`continues_after`).
- A call changes one row at most, except that any number of claims is taken back at once:
  these are the rows that are answered (`requeue_answers`).
-/

namespace JobQueue

/-! ## Logs -/

/-- The log of a row is read as these events. -/
def Row.HasLog (r : Row) (es : List Event) : Prop :=
  ∃ text, r.events = .text text ∧ Log.parse text = .ok es

theorem Row.hasLog_of_events {r : Row} {es : List Event} (h : r.events = .text (Log.text es)) :
    r.HasLog (es.map Event.settled) := ⟨_, h, Log.parse_text es⟩

/-- A log is read in one way. -/
theorem Row.HasLog.unique {r : Row} {es ds : List Event} (hes : r.HasLog es)
    (hds : r.HasLog ds) : es = ds := by
  obtain ⟨text, htext, hparse⟩ := hes
  obtain ⟨text', htext', hparse'⟩ := hds
  cases htext.symm.trans htext'
  exact Except.ok.inj (hparse.symm.trans hparse')

/-! ## What a call makes of a row -/

/-- A row that stays in a call, before and after. -/
structure Row.Grows (r r' : Row) : Prop where
  /-- What the row says about its job stays. -/
  same : r'.id = r.id ∧ r'.name = r.name ∧ r'.label = r.label ∧ r'.data = r.data ∧
    r'.created = r.created
  /-- At most one more attempt is counted. -/
  attempts : r'.attempts = r.attempts ∨ r'.attempts = r.attempts + 1
  /-- The log is as it was, or one event longer where the status is another one. -/
  events : ∃ es, r.HasLog es ∧
    (r'.HasLog es ∧ r'.status = r.status ∨ ∃ e, r'.HasLog (es ++ [e]) ∧ r'.status ≠ r.status)
  finished : r.finished ≠ .null → r'.finished = r.finished
  result : r.result ≠ .null → r'.result = r.result
  reason : r.reason ≠ .null → r'.reason = r.reason
  /-- What is done stays as it is. -/
  terminal : r.isTerminal → r' = r

theorem Status.ne_of_mayFollow {t u : Status} (h : t.mayFollow u) : u ≠ t := by
  rintro rfl
  cases u <;> exact absurd h (by decide)

theorem Status.not_isTerminal_of_mayFollow {t u : Status} (h : t.mayFollow u) :
    t.isTerminal = false := by
  cases t with
  | enqueued | dequeued => rfl
  | completed | failed | cancelled => exact absurd h (by simp [mayFollow])

namespace Row

variable {r r' : Row}

/-- A row that is left alone. -/
theorem Grows.refl (ha : r.Audited) : r.Grows r := by
  obtain ⟨es, hevents, -⟩ := ha
  have hlog := hasLog_of_events hevents
  exact ⟨⟨rfl, rfl, rfl, rfl, rfl⟩, .inl rfl, ⟨_, hlog, .inl ⟨hlog, rfl⟩⟩, fun _ => rfl,
    fun _ => rfl, fun _ => rfl, fun _ => rfl⟩

end Row

/-- A change adds one event, and overwrites nothing that belongs to the end. -/
theorem Change.grows {c : Call} {r r' : Row} (h : Change c r r') (hr : r.Recorded)
    (ha : r.Audited) : r.Grows r' := by
  obtain ⟨es, hevents, -⟩ := ha
  obtain ⟨e, he⟩ := h.enters
  obtain ⟨t, ht, hfollows⟩ := he.follows
  -- a row that changes is not done, so nothing that belongs to the end is there yet
  obtain ⟨hfinished, hresult, hreason⟩ :=
    hr.not_done ht (Status.not_isTerminal_of_mayFollow hfollows)
  have hadded : r'.events = .text (Log.text (es ++ [e])) := by
    have happended := he.events
    rw [Row.appended_text hevents, Option.some.injEq] at happended
    exact happended.symm
  have hstatus : r'.status ≠ r.status := by
    rw [he.status, ht, Ne, Row.ofStatus_inj]
    exact Status.ne_of_mayFollow hfollows
  constructor
  · exact h.same
  · rw [h.attempts_eq]
    split
    · exact .inr rfl
    · exact .inl (Int.add_zero _)
  · have hlonger := Row.hasLog_of_events hadded
    rw [List.map_append, List.map_singleton] at hlonger
    exact ⟨_, Row.hasLog_of_events hevents, .inr ⟨e.settled, hlonger, hstatus⟩⟩
  · exact fun hn => absurd hfinished hn
  · exact fun hn => absurd hresult hn
  · exact fun hn => absurd hreason hn
  · intro hdone
    rw [h.not_isTerminal] at hdone
    exact absurd hdone (by decide)

/-! ## What calls make of a row -/

/-- A row that stays, at one time and at a later one. -/
structure Row.Continues (r r' : Row) : Prop where
  same : r'.id = r.id ∧ r'.name = r.name ∧ r'.label = r.label ∧ r'.data = r.data ∧
    r'.created = r.created
  attempts : r.attempts ≤ r'.attempts
  /-- The log is added to at its end. -/
  events : ∃ es added, r.HasLog es ∧ r'.HasLog (es ++ added)
  finished : r.finished ≠ .null → r'.finished = r.finished
  result : r.result ≠ .null → r'.result = r.result
  reason : r.reason ≠ .null → r'.reason = r.reason
  terminal : r.isTerminal → r' = r

namespace Row

variable {r r' r'' : Row}

theorem Grows.continues (h : r.Grows r') : r.Continues r' where
  same := h.same
  attempts := by
    rcases h.attempts with heq | heq <;> omega
  events := by
    obtain ⟨es, hes, ⟨hsame, -⟩ | ⟨e, hmore, -⟩⟩ := h.events
    · exact ⟨es, [], hes, by rwa [List.append_nil]⟩
    · exact ⟨es, [e], hes, hmore⟩
  finished := h.finished
  result := h.result
  reason := h.reason
  terminal := h.terminal

/-- A column that is kept once it is written is kept by one call after the other. -/
theorem kept_trans {a b c : Column} (h : a ≠ .null → b = a) (h' : b ≠ .null → c = b)
    (ha : a ≠ .null) : c = a := by
  have hb := h ha
  rw [h' (hb ▸ ha), hb]

theorem Continues.trans (h : r.Continues r') (h' : r'.Continues r'') : r.Continues r'' := by
  obtain ⟨es, added, hes, hmore⟩ := h.events
  obtain ⟨es', added', hes', hmore'⟩ := h'.events
  obtain rfl := hmore.unique hes'
  obtain ⟨hid, hname, hlabel, hdata, hcreated⟩ := h.same
  obtain ⟨hid', hname', hlabel', hdata', hcreated'⟩ := h'.same
  constructor
  · exact ⟨hid'.trans hid, hname'.trans hname, hlabel'.trans hlabel, hdata'.trans hdata,
      hcreated'.trans hcreated⟩
  · exact h.attempts.trans h'.attempts
  · exact ⟨es, added ++ added', hes, by rwa [← List.append_assoc]⟩
  · exact kept_trans h.finished h'.finished
  · exact kept_trans h.result h'.result
  · exact kept_trans h.reason h'.reason
  · intro hdone
    have heq := h.terminal hdone
    rw [h'.terminal (heq ▸ hdone), heq]

end Row

/-! ## What a call makes of all rows -/

/-- A call makes another row of the row of a job. -/
def Step.Changes (e : Step) (id : JobId) : Prop :=
  ∃ r r', e.before.row? id = some r ∧ e.after.row? id = some r' ∧ r' ≠ r

/-- What a call leaves of the rows that stay. -/
structure Step.Permanent (e : Step) : Prop where
  /-- A row that stays loses nothing. -/
  grows : ∀ id r r', e.before.row? id = some r → e.after.row? id = some r' → r.Grows r'
  /-- At most one row becomes another one, unless claims are taken back. -/
  single : (∀ name startedBefore now, e.call ≠ .requeue name startedBefore now) →
    ∀ id id', e.Changes id → e.Changes id' → id = id'
  /-- Where claims are taken back, those rows become others that are answered. -/
  requeued : ∀ name startedBefore now, e.call = .requeue name startedBefore now →
    ∃ ids, (e.before.requeue name startedBefore now).1 = .ok ids ∧ ∀ id, id ∈ ids ↔ e.Changes id

section

variable {cs : List Call} {e : Step} {id : JobId} {r r' : Row}

/-- A row that becomes another one has been changed by the call. -/
theorem change_of_ne (hk : Keyed e.before.rows) (hr : e.before.row? id = some r)
    (hr' : e.after.row? id = some r') (hne : r' ≠ r) : Change e.call r r' := by
  have hfate := e.fate hk id
  rw [hr, hr'] at hfate
  cases hfate with
  | same => exact absurd rfl hne
  | changed h => exact h

/-- A row that stays is left alone or changed. -/
theorem grows_after (hcs : AllNew cs) (c : Call) (hr : (Store.empty.after cs).row? id = some r)
    (hr' : (c.next (Store.empty.after cs)).row? id = some r') : r.Grows r' := by
  have hk := keyed_after cs keyed_empty
  obtain ⟨hrecorded, haudited⟩ := consistent_after hcs ((rowOf?_eq_some_iff hk).mp hr).1
  by_cases heq : r' = r
  · rw [heq]
    exact .refl haudited
  · exact (change_of_ne (e := ⟨Store.empty.after cs, c⟩) hk hr hr' heq).grows hrecorded haudited

/-- Whatever is called, a row that stays is only added to. -/
theorem continues_after {ds : List Call} (hcs : AllNew (cs ++ ds)) (hid : id ∉ insertedIds ds)
    (hr : (Store.empty.after cs).row? id = some r)
    (hr' : (Store.empty.after (cs ++ ds)).row? id = some r') : r.Continues r' := by
  induction ds using List.reverseRecOn generalizing r' with
  | nil =>
      rw [List.append_nil] at hr' hcs
      obtain rfl := Option.some.inj (hr.symm.trans hr')
      have hmem := ((rowOf?_eq_some_iff (keyed_after cs keyed_empty)).mp hr).1
      exact (Row.Grows.refl (consistent_after hcs hmem).2).continues
  | append_singleton ds d ih =>
      rw [← List.append_assoc] at hcs hr'
      have hold : AllNew (cs ++ ds) := fun c hc => hcs c (List.mem_append_left _ hc)
      have hidold : id ∉ insertedIds ds := fun hm =>
        hid (by rw [insertedIds_append]; exact List.mem_append_left _ hm)
      -- a job that is not inserted again has had a row all the time
      cases hmid : (Store.empty.after (cs ++ ds)).row? id with
      | none =>
          have hidlast : id ∉ insertedIds [d] := fun hm =>
            hid (by rw [insertedIds_append]; exact List.mem_append_right _ hm)
          rw [Store.after_append, row?_after_eq_none (keyed_after _ keyed_empty) hidlast hmid]
            at hr'
          cases hr'
      | some x =>
          rw [Store.after_append] at hr'
          exact (ih hold hidold hmid).trans (grows_after hold d hmid hr').continues

end

/-! ## One row at a time -/

/-- A row that becomes another one where a row is put in its place is that row. -/
theorem id_of_changes_replace {s : Store} (hk : Keyed s.rows) {c : Call} {new : Row}
    (hnext : c.next s = s.replace new) {id : JobId} (h : (Step.mk s c).Changes id) :
    new.id = .text id.text := by
  obtain ⟨r, r', hr, hr', hne⟩ := h
  have hkeyed : Keyed (s.replace new).rows := hnext ▸ keyed_next hk
  rw [Step.after, hnext] at hr'
  obtain ⟨hmem, hid⟩ := (rowOf?_eq_some_iff hk).mp hr
  obtain ⟨hmem', hid'⟩ := (rowOf?_eq_some_iff hkeyed).mp hr'
  obtain ⟨x, hx, rfl⟩ := List.mem_map.mp hmem'
  split at hid'
  · exact hid'
  · next hkept =>
      rw [if_neg hkept] at hne
      exact absurd (hk.eq_of_id_eq hx hmem (hid'.trans hid.symm)) hne

/-- Unless claims are taken back, a call changes one row at most. -/
theorem changes_unique {e : Step} (hk : Keyed e.before.rows)
    (hcall : ∀ name startedBefore now, e.call ≠ .requeue name startedBefore now) {id id' : JobId}
    (h : e.Changes id) (h' : e.Changes id') : id = id' := by
  obtain ⟨s, c⟩ := e
  have hchange {i : JobId} (hi : (Step.mk s c).Changes i) :
      ∃ r r', r.id = .text i.text ∧ Change c r r' := by
    obtain ⟨r, r', hr, hr', hne⟩ := hi
    exact ⟨r, r', ((rowOf?_eq_some_iff hk).mp hr).2, change_of_ne hk hr hr' hne⟩
  obtain ⟨r, r', hid, hch⟩ := hchange h
  obtain ⟨q, q', hid', hch'⟩ := hchange h'
  cases hch with
  | @claimed name now =>
      rcases s.claim_cases name now with ⟨a, -, he⟩ | ⟨x, new, -, -, he⟩
      · obtain ⟨y, y', hy, hy', hne⟩ := h
        rw [Step.after, Call.next, he, hy, Option.some.injEq] at hy'
        exact absurd hy'.symm hne
      · have hnext : (Call.claim name now).next s = s.replace new := by rw [Call.next, he]
        have heq := (id_of_changes_replace hk hnext h).symm.trans (id_of_changes_replace hk hnext h')
        exact JobId.text_inj.mp (Column.text.inj heq)
  | @finished own _ _ _ _ _ mine =>
      cases hch' with
      | finished mine' =>
          have heq := (hid.symm.trans (is_iff.mp mine)).trans
            ((is_iff.mp mine').symm.trans hid')
          exact JobId.text_inj.mp (Column.text.inj heq)
  | requeued => exact absurd rfl (hcall _ _ _)

/-! ## Claims that are taken back -/

/-- Where rows are changed in their places, those jobs are changed whose rows are. -/
theorem changes_map_iff {e : Step} {f : Row → Row} (hk : Keyed e.before.rows)
    (hafter : e.after.rows = e.before.rows.map f) (hf : ∀ r ∈ e.before.rows, (f r).id = r.id)
    (id : JobId) : e.Changes id ↔ ∃ r ∈ e.before.rows, r.id = .text id.text ∧ f r ≠ r := by
  have hrow : e.after.row? id = (e.before.row? id).map f := by
    rw [Store.row?, hafter, rowOf?_map hf]
    rfl
  constructor
  · rintro ⟨r, r', hr, hr', hne⟩
    obtain ⟨hmem, hid⟩ := (rowOf?_eq_some_iff hk).mp hr
    rw [hrow, hr, Option.map_some, Option.some.injEq] at hr'
    exact ⟨r, hmem, hid, hr' ▸ hne⟩
  · rintro ⟨r, hmem, hid, hne⟩
    have hr : e.before.row? id = some r := (rowOf?_eq_some_iff hk).mpr ⟨hmem, hid⟩
    exact ⟨r, f r, hr, by rw [hrow, hr, Option.map_some], hne⟩

/-- A row after claims are taken back. -/
def Row.released (r : Row) (name : String) (startedBefore now : Instant) : Row :=
  if r.isStale name (Stamp.ofInstant startedBefore) then (r.requeued now).getD r else r

section

variable {name : String} {startedBefore now : Instant}

theorem Row.released_of_not_isStale {r : Row}
    (h : ¬ r.isStale name (Stamp.ofInstant startedBefore)) :
    r.released name startedBefore now = r := if_neg h

/-- A row with a log is changed when its claim is taken back. -/
theorem change_released {r : Row} (ha : r.Audited)
    (h : r.isStale name (Stamp.ofInstant startedBefore)) :
    r.requeued now = some (r.released name startedBefore now) ∧
      Change (.requeue name startedBefore now) r (r.released name startedBefore now) := by
  obtain ⟨es, hevents, -⟩ := ha
  have hnew := Row.requeued_text hevents now
  have heq : r.released name startedBefore now = _ :=
    (if_pos h).trans (by rw [hnew, Option.getD_some])
  rw [heq]
  exact ⟨hnew, .requeued h hnew⟩

/-- Claims that are taken back are those of rows that become others. -/
theorem released_ne_iff {r : Row} (ha : r.Audited) :
    r.released name startedBefore now ≠ r ↔ r.isStale name (Stamp.ofInstant startedBefore) :=
  ⟨fun hne => Classical.not_not.mp fun h => hne (Row.released_of_not_isStale h),
    fun h => (change_released ha h).2.ne.symm⟩

theorem released_id {r : Row} (ha : r.Audited) :
    (r.released name startedBefore now).id = r.id := by
  by_cases h : r.isStale name (Stamp.ofInstant startedBefore)
  · exact (change_released ha h).2.id_eq
  · rw [Row.released_of_not_isStale h]

end

section

variable {s : Store} {name : String} {startedBefore now : Instant}

/-- Where claims can be taken back, they are. -/
theorem requeue_of_audited (hjobs : s.schema.hasJobs) (hlog : ∀ r ∈ s.rows, r.Audited) :
    s.requeue name startedBefore now =
      ((s.rows.filter (·.isStale name (Stamp.ofInstant startedBefore))).mapM Store.requeuedId,
        { s with rows := s.rows.map fun r => r.released name startedBefore now }) :=
  Store.requeue_of_stale hjobs fun r hr hstale =>
    Option.isSome_iff_exists.mpr ⟨_, (change_released (hlog r hr) hstale).1⟩

/-- Those jobs are changed whose claims are old enough. -/
theorem changes_requeue_iff (hk : Keyed s.rows) (hjobs : s.schema.hasJobs)
    (hlog : ∀ r ∈ s.rows, r.Audited) (id : JobId) :
    (Step.mk s (.requeue name startedBefore now)).Changes id ↔
      ∃ r ∈ s.rows, r.id = .text id.text ∧ r.isStale name (Stamp.ofInstant startedBefore) := by
  have hafter : (Step.mk s (.requeue name startedBefore now)).after.rows =
      s.rows.map fun r => r.released name startedBefore now := by
    rw [Step.after, Call.next, requeue_of_audited hjobs hlog]
  rw [changes_map_iff hk hafter fun r hr => released_id (hlog r hr)]
  refine exists_congr fun r => and_congr_right fun hr => ?_
  rw [released_ne_iff (hlog r hr)]

/-- Claims are taken back of exactly the jobs that are answered. -/
theorem requeue_answers (hk : Keyed s.rows) (hjobs : s.schema.hasJobs)
    (hlog : ∀ r ∈ s.rows, r.Audited) :
    ∃ ids, (s.requeue name startedBefore now).1 = .ok ids ∧
      ∀ id, id ∈ ids ↔ (Step.mk s (.requeue name startedBefore now)).Changes id := by
  have hids : ∀ r ∈ s.rows.filter (·.isStale name (Stamp.ofInstant startedBefore)),
      ∃ id : JobId, r.id = .text id.text := fun r hr => hk.ids r (List.mem_filter.mp hr).1
  obtain ⟨ids, hmapM, hmem⟩ := exists_mapM_requeuedId hids
  refine ⟨ids, by rw [requeue_of_audited hjobs hlog, hmapM], fun id => ?_⟩
  rw [hmem, changes_requeue_iff hk hjobs hlog]
  refine exists_congr fun r => ?_
  rw [List.mem_filter, and_assoc, and_comm (b := r.id = _)]

end

/-! ## Every call -/

/-- Whatever is called, with whatever arguments, rows that stay lose nothing, and only those
become others that the call is for. -/
theorem permanent_next {cs : List Call} (hcs : AllNew cs) (c : Call) :
    (Step.mk (Store.empty.after cs) c).Permanent where
  grows _ _ _ hr hr' := grows_after hcs c hr hr'
  single hcall _ _ h h' := changes_unique (keyed_after cs keyed_empty) hcall h h'
  requeued name startedBefore now hcall := by
    obtain rfl : c = .requeue name startedBefore now := hcall
    exact requeue_answers (keyed_after cs keyed_empty) (hasJobs_after cs)
      fun r hr => (consistent_after hcs hr).2

/-- For instance where a claim is taken back. -/
theorem permanent_requeue : AllNew [.insert .sample, .claim "mail" .epoch] ∧
    (Step.mk (Store.empty.after [.insert .sample, .claim "mail" .epoch])
      (.requeue "mail" .latest .epoch)).Changes Job.sample.id ∧
    (Step.mk (Store.empty.after [.insert .sample, .claim "mail" .epoch])
      (.requeue "mail" .latest .epoch)).Permanent := by
  have hinsert : AllNew [.insert .sample] := jobs_insert sample_isNew
  have hnew : AllNew [.insert .sample, .claim "mail" .epoch] := hinsert.concat fun _ h => by cases h
  have hafter : Store.empty.after [.insert .sample, .claim "mail" .epoch] = _ :=
    after_claim sample_isNew sample_available
  have hlt : Stamp.ofInstant .epoch < Stamp.ofInstant .latest :=
    Stamp.ofInstant_lt_iff.mpr (by decide)
  refine ⟨hnew, ?_, permanent_next hnew _⟩
  refine (changes_requeue_iff (keyed_after _ keyed_empty) (hasJobs_after _)
    (fun r hr => (consistent_after hnew hr).2) _).mpr ⟨claimedRow .sample .epoch, ?_, rfl, ?_⟩
  · rw [hafter]
    exact List.mem_singleton_self _
  · simpa [Row.isStale, Row.hasStatus, claimedRow, Row.ofJob, Row.ofStatus, Row.ofInstant,
      Column.is, Job.sample, Job.new] using hlt

end JobQueue
