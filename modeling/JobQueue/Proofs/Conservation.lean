import JobQueue.Proofs.Draining

/-!
# JobQueue.Proofs.Conservation

No job is lost, and none is there twice.

- A step that accepts a job puts its row where there was none (`Step.accepts_eq`), so there
  is a row of each job for every time that it was accepted and not removed (`balance_after`).
- Rows are removed by deletions only, and by the deletion of old rows only when they are
  done (`removed_by_deletion`). What deletions answer says whether they removed a row, and how
  many they removed (`Step.delete_eq`, `Step.deleteFinished_eq`).
- All others can be handed out again.
-/

namespace JobQueue

namespace Step

/-- Whether the insertion of a job is answered with success. -/
def accepts (e : Step) (id : JobId) : Bool :=
  match e.call with
  | .insert j =>
      j.id == id &&
        match (e.before.insert j).1 with
        | .ok () => true
        | .error _ => false
  | .insertIfAbsent j finishedAfter =>
      j.id == id &&
        match (e.before.insertIfAbsent j finishedAfter).1 with
        | .ok added => added
        | .error _ => false
  | _ => false

/-- Whether the row of a job is removed. -/
def removes (e : Step) (id : JobId) : Bool :=
  (e.before.row? id).isSome && (e.after.row? id).isNone

end Step

/-! ## Accepted jobs -/

/-- A row that is added was not there, and is there then. -/
theorem Store.beq_of_added {s : Store} {j : Job} (habsent : s.hasId j.id.text = false)
    (id : JobId) :
    (j.id == id) = ((s.row? id).isNone &&
      (Store.row? { s with rows := s.rows ++ [Row.ofJob j] } id).isSome) := by
  rw [row?, row?, rowOf?_added (not_hasId habsent)]
  by_cases hid : j.id = id
  · subst hid
    rw [if_pos rfl, rowOf?_eq_none_iff.mpr (not_hasId habsent), beq_self_eq_true]
    rfl
  · rw [if_neg hid, beq_eq_false_iff_ne.mpr hid]
    cases rowOf? s.rows id <;> rfl

theorem isNone_and_isSome {α : Type} (o : Option α) : (o.isNone && o.isSome) = false := by
  cases o <;> rfl

/-- A call that inserts nothing adds no row. -/
theorem Fate.not_added {c : Call} {id : JobId} {o o' : Option Row} (h : Fate c id o o')
    (hc : c.job? = none) : (o.isNone && o'.isSome) = false := by
  cases h with
  | same => exact isNone_and_isSome _
  | inserted hj _ =>
      rw [hc] at hj
      cases hj
  | changed _ => rfl
  | removed _ => rfl

namespace Step

/-- A job is accepted where its row was not there, and is there then. -/
theorem accepts_eq {e : Step} (hk : Keyed e.before.rows) (id : JobId) :
    e.accepts id = ((e.before.row? id).isNone && (e.after.row? id).isSome) := by
  obtain ⟨s, c⟩ := e
  cases c with
  | insert j =>
      rcases s.insert_cases j with ⟨e, he⟩ | ⟨habsent, he⟩
      · simp only [accepts, after, Call.next, he, Bool.and_false, isNone_and_isSome]
      · simp only [accepts, after, Call.next, he, Bool.and_true]
        exact Store.beq_of_added habsent id
  | insertIfAbsent j t =>
      rcases s.insertIfAbsent_cases j t with ⟨a, ha, he⟩ | ⟨habsent, he⟩
      · simp only [accepts, after, Call.next, he, isNone_and_isSome]
        cases a with
        | error e => exact Bool.and_false _
        | ok added =>
            cases added with
            | false => exact Bool.and_false _
            | true => exact absurd rfl ha
      · simp only [accepts, after, Call.next, he, Bool.and_true]
        exact Store.beq_of_added habsent id
  | _ => exact ((fate_next hk _ id).not_added rfl).symm

end Step

/-! ## The balance -/

/-- How many rows a job has. -/
def Store.copies (s : Store) (id : JobId) : Nat := s.rows.countP fun r => r.id.is id.text

/-- A job has one row or none. -/
theorem Store.copies_eq {s : Store} (hk : Keyed s.rows) (id : JobId) :
    s.copies id = if (s.row? id).isSome then 1 else 0 := by
  have hcount := hk.nodup.count (a := Column.text id.text)
  rw [List.count, List.countP_map] at hcount
  refine hcount.trans (if_congr ?_ rfl rfl)
  rw [row?, rowOf?, List.find?_isSome, List.mem_map]
  simp only [is_iff]

/-- A step adds a row of a job if it accepts it, and takes one away if it removes it. -/
theorem Step.balance {e : Step} (hk : Keyed e.before.rows) (id : JobId) :
    e.before.copies id + (if e.accepts id then 1 else 0) =
      (if e.removes id then 1 else 0) + e.after.copies id := by
  have hk' : Keyed e.after.rows := keyed_next hk
  rw [Store.copies_eq hk, Store.copies_eq hk', accepts_eq hk, removes]
  cases e.before.row? id <;> cases e.after.row? id <;> rfl

/-- A job has as many rows as it was accepted and not removed. -/
theorem balance_after {s : Store} (hk : Keyed s.rows) (cs : List Call) (id : JobId) :
    s.copies id + (s.history cs).countP (·.accepts id) =
      (s.history cs).countP (·.removes id) + (s.after cs).copies id := by
  induction cs generalizing s with
  | nil => exact Nat.add_comm _ 0
  | cons c cs ih =>
      have hstep : s.copies id + _ = _ + (c.next s).copies id := Step.balance (e := ⟨s, c⟩) hk id
      have hrest := ih (keyed_next (c := c) hk)
      rw [Store.history_cons, List.countP_cons, List.countP_cons, Store.after_cons]
      omega

/-! ## Removed jobs -/

/-- Only deletions remove rows. -/
theorem Fate.removed_of_none {c : Call} {id : JobId} {r : Row} (h : Fate c id (some r) none) :
    c.removes r := by
  cases h with
  | removed h => exact h

/-- A row is removed on request, or because it was done before some instant. -/
theorem removed_by_deletion {cs : List Call} (hcs : AllNew cs) {e : Step}
    (he : e ∈ Store.empty.history cs) {id : JobId} (h : e.removes id) :
    e.call = .delete id ∨
      ∃ cutoff r, e.call = .deleteFinished cutoff ∧ e.before.row? id = some r ∧ r.isTerminal := by
  obtain ⟨pre, post, hsplit⟩ := List.append_of_mem he
  obtain ⟨cs₁, cs₂, rfl, -, hbefore, -⟩ := Store.calls_of_history hsplit
  have hk := keyed_of_history hsplit
  rw [Step.removes, Bool.and_eq_true, Option.isSome_iff_exists, Option.isNone_iff_eq_none] at h
  obtain ⟨⟨r, hr⟩, hnone⟩ := h
  obtain ⟨hmem, hid⟩ := (rowOf?_eq_some_iff hk).mp hr
  have hfate := e.fate hk id
  rw [hr, hnone] at hfate
  have hremoves := hfate.removed_of_none
  obtain ⟨s, c⟩ := e
  cases c with
  | delete id' =>
      have htext := Column.text.inj (hid.symm.trans (is_iff.mp hremoves))
      exact .inl (by rw [JobId.text_inj.mp htext])
  | deleteFinished cutoff =>
      have hfinished : r.finished ≠ .null := fun hnull => by
        rw [Call.removes, hnull] at hremoves
        exact absurd hremoves (by simp)
      obtain ⟨hrecorded, -⟩ := consistent_after
        (fun d hd => hcs d (List.mem_append_left _ hd)) (hbefore ▸ hmem)
      exact .inr ⟨cutoff, r, rfl, hr, hrecorded.finished_iff.mp hfinished⟩
  | _ => exact absurd hremoves (by simp [Call.removes])

/-- Rows that have identities, and what these are. -/
theorem exists_ids {rows : List Row} (h : ∀ r ∈ rows, ∃ id : JobId, r.id = .text id.text) :
    ∃ ids : List JobId, rows.map Row.id = ids.map fun id => .text id.text := by
  induction rows with
  | nil => exact ⟨[], rfl⟩
  | cons r rows ih =>
      obtain ⟨id, hid⟩ := h r List.mem_cons_self
      obtain ⟨ids, hids⟩ := ih fun x hx => h x (List.mem_cons_of_mem _ hx)
      exact ⟨id :: ids, by rw [List.map_cons, List.map_cons, hid, hids]⟩

namespace Step

variable {e : Step}

/-- Where rows are filtered out, those of their jobs are removed. -/
theorem removes_iff_of_filter (hk : Keyed e.before.rows) {p : Row → Bool}
    (h : e.after.rows = e.before.rows.filter fun r => !p r) (id : JobId) :
    e.removes id ↔ ∃ r ∈ e.before.rows, p r ∧ r.id = .text id.text := by
  rw [removes, Bool.and_eq_true, Option.isSome_iff_exists, Option.isNone_iff_eq_none]
  constructor
  · rintro ⟨⟨r, hr⟩, hnone⟩
    obtain ⟨hmem, hid⟩ := (rowOf?_eq_some_iff hk).mp hr
    refine ⟨r, hmem, ?_, hid⟩
    by_contra hp
    have hafter : r ∈ e.after.rows := by
      rw [h]
      exact List.mem_filter.mpr ⟨hmem, by simpa using hp⟩
    exact rowOf?_eq_none_iff.mp hnone r hafter hid
  · rintro ⟨r, hr, hp, hid⟩
    refine ⟨⟨r, (rowOf?_eq_some_iff hk).mpr ⟨hr, hid⟩⟩, rowOf?_eq_none_iff.mpr ?_⟩
    intro x hx heq
    rw [h] at hx
    obtain ⟨hx, hnot⟩ := List.mem_filter.mp hx
    rw [hk.eq_of_id_eq hx hr (heq.trans hid.symm), hp] at hnot
    exact absurd hnot (by decide)

/-- A deletion on request answers whether it removed the row of the job. -/
theorem delete_eq (hk : Keyed e.before.rows) (hjobs : e.before.schema.hasJobs) {id : JobId}
    (hcall : e.call = .delete id) : (e.before.delete id).1 = .ok (e.removes id) := by
  have hdelete : e.before.delete id = (.ok (e.before.hasId id.text),
      { e.before with rows := e.before.rows.filter fun r => !r.id.is id.text }) := if_pos hjobs
  have hafter : e.after.rows = e.before.rows.filter fun r => !r.id.is id.text := by
    rw [after, hcall, Call.next, hdelete]
  have hremoves := removes_iff_of_filter hk hafter id
  rw [hdelete, Except.ok.injEq, Bool.eq_iff_iff, hremoves, Store.hasId, List.any_eq_true]
  exact exists_congr fun r => and_congr_right fun _ => ⟨fun h => ⟨h, is_iff.mp h⟩, And.left⟩

/-- The deletion of old rows answers how many it removed. -/
theorem deleteFinished_eq (hk : Keyed e.before.rows) (hjobs : e.before.schema.hasJobs)
    {cutoff : Instant} (hcall : e.call = .deleteFinished cutoff) :
    ∃ ids : List JobId, ids.Nodup ∧ (∀ id, id ∈ ids ↔ e.removes id) ∧
      (e.before.deleteFinished cutoff).1 = .ok ids.length := by
  obtain ⟨p, hp⟩ : ∃ p : Row → Bool, p = fun r => r.finished.before (Stamp.ofInstant cutoff) :=
    ⟨_, rfl⟩
  have hdelete : e.before.deleteFinished cutoff = (.ok (e.before.rows.countP p),
      { e.before with rows := e.before.rows.filter fun r => !p r }) := hp ▸ if_pos hjobs
  have hafter : e.after.rows = e.before.rows.filter fun r => !p r := by
    rw [after, hcall, Call.next, hdelete]
  have hsome : ∀ r ∈ e.before.rows.filter p, ∃ id : JobId, r.id = .text id.text := fun r hr =>
    hk.ids r (List.mem_filter.mp hr).1
  obtain ⟨ids, hids⟩ := exists_ids hsome
  have hnodup : (ids.map fun id => Column.text id.text).Nodup :=
    hids ▸ hk.nodup.sublist (List.filter_sublist.map Row.id)
  refine ⟨ids, hnodup.of_map _, fun id => ?_, ?_⟩
  · have hmem : id ∈ ids ↔ Column.text id.text ∈ ids.map fun id => Column.text id.text := by
      simp [JobId.text_inj]
    rw [removes_iff_of_filter hk hafter, hmem, ← hids, List.mem_map]
    simp only [List.mem_filter, and_assoc]
  · have hlength := congrArg List.length hids
    rw [List.length_map, List.length_map, ← List.countP_eq_length_filter] at hlength
    rw [hdelete, hlength]

end Step

theorem hasJobs_of_mem_history {cs : List Call} {e : Step} (h : e ∈ Store.empty.history cs) :
    e.before.schema.hasJobs := by
  obtain ⟨pre, post, hsplit⟩ := List.append_of_mem h
  obtain ⟨cs₁, cs₂, -, -, hbefore, -⟩ := Store.calls_of_history hsplit
  rw [hbefore]
  exact hasJobs_after cs₁

/-! ## Conservation -/

/-- What calls conserve of the jobs that were accepted. -/
structure Conserved (cs : List Call) : Prop where
  /-- Each row is that of a job, which has a name. -/
  identified : ∀ r ∈ (Store.empty.after cs).rows,
    (∃ id : JobId, r.id = .text id.text) ∧ ∃ name, r.name = .text name
  /-- A job has no more than one. -/
  single : ∀ id, (Store.empty.after cs).copies id ≤ 1
  /-- There are the rows of the jobs that were accepted, without those that were removed. -/
  balance : ∀ id, (Store.empty.history cs).countP (·.accepts id) =
    (Store.empty.history cs).countP (·.removes id) + (Store.empty.after cs).copies id
  /-- A row is removed on request, or because it was done before some instant. -/
  removed : ∀ e ∈ Store.empty.history cs, ∀ id, e.removes id → e.call = .delete id ∨
    ∃ cutoff r, e.call = .deleteFinished cutoff ∧ e.before.row? id = some r ∧ r.isTerminal
  /-- A deletion on request answers whether it removed the row of the job. -/
  deleted : ∀ e ∈ Store.empty.history cs, ∀ id, e.call = .delete id →
    (e.before.delete id).1 = .ok (e.removes id)
  /-- The deletion of old rows answers how many it removed. -/
  expired : ∀ e ∈ Store.empty.history cs, ∀ cutoff, e.call = .deleteFinished cutoff →
    ∃ ids : List JobId, ids.Nodup ∧ (∀ id, id ∈ ids ↔ e.removes id) ∧
      (e.before.deleteFinished cutoff).1 = .ok ids.length
  /-- A job that waits is handed out when it is available. -/
  available : ∀ r ∈ (Store.empty.after cs).rows, r.hasStatus .enqueued →
    ∀ (id : JobId) (name : String), r.id = .text id.text → r.name = .text name →
    ∀ now : Instant, now.HasStamp → r.IsAvailable now →
      (Store.empty.after cs).HandsOut name now id
  /-- A job that is not done is handed out again: one that is claimed after the claim was
  taken back, and one that waits when it is available. -/
  recoverable : ∀ r ∈ (Store.empty.after cs).rows, r.isTerminal = false →
    ∀ (id : JobId) (name : String), r.id = .text id.text → r.name = .text name →
    ∀ cutoff now : Instant, now.HasStamp →
      (r.hasStatus .dequeued → r.started.before (Stamp.ofInstant cutoff)) →
      (r.hasStatus .enqueued → r.IsAvailable now) →
      ((Store.empty.after cs).requeue name cutoff now).2.HandsOut name now id

/-- Whatever is called, no accepted job is lost or doubled, and none is stuck. -/
theorem conserved_after {cs : List Call} (hcs : AllNew cs) (hdata : AllStorable cs)
    (hclaims : FewClaims cs) : Conserved cs where
  identified r hr := ⟨(keyed_after cs keyed_empty).ids r hr, (typed_after cs r hr).name⟩
  single id := by
    rw [Store.copies_eq (keyed_after cs keyed_empty)]
    split <;> decide
  balance id := by
    have hempty : Store.empty.copies id = 0 := rfl
    have hbalance := balance_after keyed_empty cs id
    rwa [hempty, Nat.zero_add] at hbalance
  removed _ he _ h := removed_by_deletion hcs he h
  deleted _ he _ hcall := Step.delete_eq (keyed_of_mem_history he) (hasJobs_of_mem_history he) hcall
  expired _ he _ hcall :=
    Step.deleteFinished_eq (keyed_of_mem_history he) (hasJobs_of_mem_history he) hcall
  available r hr hstatus id name hid hname now hnow havailable :=
    handsOut_of_upTo hcs hdata hclaims hr hid hname (Row.hasStatus_iff.mp hstatus)
      (havailable.upTo (typed_after cs r hr) hnow)
  recoverable r hr hopen id name hid hname cutoff now hnow hstarted havailable := by
    have hhanded :=
      handsOut_after_requeue hcs hdata hclaims hr hopen hid hname hnow hstarted havailable
    rwa [Store.after_append] at hhanded

/-- For instance of a job that was claimed, and is handed out after the claim was taken
back. -/
theorem conserved_claimed : Conserved [.insert .sample, .claim "mail" .epoch] ∧
    ((Store.empty.after [.insert .sample, .claim "mail" .epoch]).requeue "mail" .latest
      .epoch).2.HandsOut "mail" .epoch Job.sample.id := by
  have hnew : AllNew [.insert .sample] := jobs_insert sample_isNew
  have hdata : AllStorable [.insert .sample] := jobs_insert sample_storable
  have hconserved : Conserved ([.insert .sample] ++ [.claim "mail" .epoch]) :=
    conserved_after (hnew.concat fun _ h => by cases h) (hdata.concat fun _ h => by cases h)
      (fewClaims_of_length (by decide))
  have hrow : (Store.empty.after ([.insert .sample] ++ [.claim "mail" .epoch])).rows =
      [claimedRow .sample .epoch] := by
    have hafter : Store.empty.after [.insert .sample, .claim "mail" .epoch] = _ :=
      after_claim sample_isNew sample_available
    rw [List.singleton_append, hafter]
  have hclaimed : (claimedRow .sample .epoch).status = Row.ofStatus .dequeued := rfl
  have hlt : Stamp.ofInstant .epoch < Stamp.ofInstant .latest :=
    Stamp.ofInstant_lt_iff.mpr (by decide)
  refine ⟨hconserved, hconserved.recoverable (claimedRow .sample .epoch) ?_ ?_ _ _ rfl rfl _ _
    (Instant.hasStamp_iff.mpr (by decide)) (fun _ => ?_) (fun henqueued => ?_)⟩
  · rw [hrow]
    exact List.mem_singleton_self _
  · rw [Bool.eq_false_iff]
    exact fun hdone => absurd ((Row.isTerminal_of_status hclaimed).mp hdone) (by decide)
  · exact decide_eq_true hlt
  · exact absurd ((Row.hasStatus_of_status hclaimed _).mp henqueued) (by decide)

end JobQueue
