import JobQueue.Pool.Basic
import JobQueue.Proofs.Reaping
import JobQueue.Proofs.Tables
import JobQueue.Proofs.Validity

/-!
# JobQueue.Proofs.Recurring

The payload of a periodic job is checked once, when its task is added to a pool, and decoded
each time that a worker has claimed the job. Between the two it goes through the store.

- Through all calls, rows say of their jobs what these were inserted with: identity, name, label
  and payload (`sameJob_after`). This needs nothing of the other rows of the table.
- A pass inserts the periodic job of its task if nothing keeps it away (`schedule_of_isDue`).
- What a claim reads from the row of that job is decoded, and the handler runs
  (`recurring_reaches_handler`).

The name and the label that the handler sees are those that are read from the row, which is not
more than what stands before their first NUL.
-/

namespace JobQueue

/-! ## What rows say of their jobs -/

/-- Two rows say the same of a job. They may differ in how far it is. -/
structure SameJob (r r' : Row) : Prop where
  id : r'.id = r.id
  name : r'.name = r.name
  label : r'.label = r.label
  data : r'.data = r.data

theorem SameJob.refl (r : Row) : SameJob r r := ⟨rfl, rfl, rfl, rfl⟩

theorem SameJob.trans {r r' r'' : Row} (h : SameJob r r') (h' : SameJob r' r'') :
    SameJob r r'' :=
  ⟨h'.id.trans h.id, h'.name.trans h.name, h'.label.trans h.label, h'.data.trans h.data⟩

theorem Change.sameJob {c : Call} {r r' : Row} (h : Change c r r') : SameJob r r' :=
  ⟨h.same.1, h.same.2.1, h.same.2.2.1, h.same.2.2.2.1⟩

section

variable {c : Call} {s : Store} {r' : Row}

theorem sameJob_added {j : Job} (hj : c.job? = some j) (h : r' ∈ s.rows ++ [Row.ofJob j]) :
    (∃ r ∈ s.rows, SameJob r r') ∨ ∃ j, c.job? = some j ∧ r' = Row.ofJob j := by
  rcases List.mem_append.mp h with h | h
  · exact .inl ⟨r', h, .refl r'⟩
  · exact .inr ⟨j, hj, List.mem_singleton.mp h⟩

theorem sameJob_replace {r new : Row} (hr : r ∈ s.rows) (hch : Change c r new)
    (h : r' ∈ (s.replace new).rows) : ∃ r ∈ s.rows, SameJob r r' := by
  obtain ⟨x, hx, rfl⟩ := List.mem_map.mp h
  split
  · exact ⟨r, hr, hch.sameJob⟩
  · exact ⟨x, hx, .refl x⟩

/-- A row after a call says what a row before it said, or is that of the job that was inserted. -/
theorem sameJob_next (h : r' ∈ (c.next s).rows) :
    (∃ r ∈ s.rows, SameJob r r') ∨ ∃ j, c.job? = some j ∧ r' = Row.ofJob j := by
  have hself (h : r' ∈ s.rows) : ∃ r ∈ s.rows, SameJob r r' := ⟨r', h, .refl r'⟩
  cases c with
  | insert j =>
      rcases s.insert_cases j with ⟨e, he⟩ | ⟨-, he⟩ <;> rw [Call.next, he] at h
      · exact .inl (hself h)
      · exact sameJob_added rfl h
  | insertIfAbsent j t =>
      rcases s.insertIfAbsent_cases j t with ⟨a, -, he⟩ | ⟨-, he⟩ <;> rw [Call.next, he] at h
      · exact .inl (hself h)
      · exact sameJob_added rfl h
  | claim name now =>
      rcases s.claim_cases name now with ⟨a, -, he⟩ | ⟨r, new, hr, hnew, he⟩ <;>
        rw [Call.next, he] at h
      · exact .inl (hself h)
      · obtain ⟨hmem, hopen⟩ := Store.mem_of_claimable hr
        exact .inl (sameJob_replace hmem (.claimed hopen hnew) h)
  | finish id attempt o now =>
      rcases s.finish_cases id attempt o now with ⟨a, -, he⟩ | ⟨r, new, hmem, hid, hheld, hnew, he⟩
        <;> rw [Call.next, he] at h
      · exact .inl (hself h)
      · exact .inl (sameJob_replace hmem (.finished hid hheld hnew) h)
  | requeue name startedBefore now =>
      rcases s.requeue_cases name startedBefore now with ⟨e, he⟩ | ⟨hsome, he⟩ <;>
        rw [Call.next, he] at h
      · exact .inl (hself h)
      · obtain ⟨r, hr, rfl⟩ := List.mem_map.mp h
        refine .inl ⟨r, hr, ?_⟩
        split
        · next hstale =>
            obtain ⟨new, hnew⟩ := Option.isSome_iff_exists.mp (hsome r hr hstale)
            rw [hnew, Option.getD_some]
            exact (Change.requeued hstale hnew).sameJob
        · exact .refl r
  | get id =>
      rw [Call.next, Store.get_snd] at h
      exact .inl (hself h)
  | list name status =>
      rw [Call.next, Store.list_snd] at h
      exact .inl (hself h)
  | delete id =>
      rcases s.delete_cases id with ⟨e, he⟩ | he <;> rw [Call.next, he] at h
      · exact .inl (hself h)
      · exact .inl (hself (List.mem_filter.mp h).1)
  | deleteFinished cutoff =>
      rcases s.deleteFinished_cases cutoff with ⟨e, he⟩ | he <;> rw [Call.next, he] at h
      · exact .inl (hself h)
      · exact .inl (hself (List.mem_filter.mp h).1)
  | migrate => exact .inl (hself h)

end

/-- A row after calls says what a row before them said, or what a job was inserted with. -/
theorem sameJob_after {cs : List Call} {s : Store} {r' : Row} (h : r' ∈ (s.after cs).rows) :
    (∃ r ∈ s.rows, SameJob r r') ∨
      ∃ j : Job, j.id ∈ insertedIds cs ∧ SameJob (Row.ofJob j) r' := by
  induction cs generalizing s with
  | nil => exact .inl ⟨r', h, .refl r'⟩
  | cons c cs ih =>
      rcases ih h with ⟨r, hr, hsame⟩ | ⟨j, hj, hsame⟩
      · rcases sameJob_next hr with ⟨old, hold, hsame'⟩ | ⟨j, hj, rfl⟩
        · exact .inl ⟨old, hold, hsame'.trans hsame⟩
        · exact .inr ⟨j, mem_insertedIds hj, hsame⟩
      · exact .inr ⟨j, insertedIds_subset hj, hsame⟩

/-- The row of a job that is inserted once says what it was inserted with. -/
theorem sameJob_of_inserted {s : Store} {j : Job} (hfresh : s.hasId j.id.text = false)
    {cs : List Call} (honce : j.id ∉ insertedIds cs) {r : Row}
    (hr : r ∈ ((s.adding [j]).after cs).rows) (hid : r.id = .text j.id.text) :
    SameJob (Row.ofJob j) r := by
  rcases sameJob_after hr with ⟨old, hold, hsame⟩ | ⟨i, hi, hsame⟩
  · rcases List.mem_append.mp hold with hold | hold
    · exact absurd (hsame.id.symm.trans hid) (not_hasId hfresh old hold)
    · rwa [← List.mem_singleton.mp hold]
  · have heq : i.id = j.id := JobId.text_inj.mp (Column.text.inj (hsame.id.symm.trans hid))
    exact absurd (heq ▸ hi) honce

/-! ## Insertion -/

/-- Nothing keeps the periodic job of a task away: the table is there and takes it, its delay ends
within the calendar, its identity is new, and other jobs of its name and label were done in
time. -/
structure Task.IsDue (t : Task) (p : Periodic) (s : Session) : Prop where
  periodic : t.periodic = some p
  hasJobs : s.store.schema.hasJobs
  accepted : s.link.refusals.insert = 0
  delay : (s.supply.clock.after? p.blueprint.delay).isSome
  fresh : s.store.hasId (JobId.numbered s.supply.drawn).text = false
  free : s.store.Free t.name p.blueprint.label (Stamp.ofInstant (s.supply.clock.before p.every))

/-- What is drafted where there is a name and the delay ends within the calendar. -/
theorem Queue.draft_of_after? {name : String} {b : Blueprint} {s : Session} {available : Instant}
    (hname : name.isEmpty = false) (h : s.supply.clock.after? b.delay = some available) :
    draft name b s = (.ok (.new (.numbered s.supply.drawn) name b.label b.data s.supply.clock
      available), s.now.2.freshId.2) := by
  have hbuild : build (.numbered s.supply.drawn) s.supply.clock name b =
      .ok (.new (.numbered s.supply.drawn) name b.label b.data s.supply.clock available) := by
    rw [build, hname, if_neg (by decide), h]
  simp only [draft, Session.now, Supply.read, Supply.draw, hbuild]

/-- What is drafted for a task is inserted unless it is kept away. -/
theorem schedule_of_free {t : Task} {p : Periodic} {s s' : Session} {job : Job}
    (hp : t.periodic = some p) (hdraft : Queue.draft t.name p.blueprint s = (.ok job, s'))
    (hjobs : s.store.schema.hasJobs) (haccepted : s.link.refusals.insert = 0)
    (hfresh : s.store.hasId job.id.text = false)
    (hfree : s.store.Free job.name job.label (Stamp.ofInstant (job.created.before p.every))) :
    (Sweep.schedule t s).store = s.store.adding [job] := by
  have hlink := Queue.draft_link t.name p.blueprint s
  rw [hdraft] at hlink
  rw [Sweep.schedule_of_ok hp hdraft, Session.store, hlink, Link.insertIfAbsent, haccepted]
  exact congrArg Prod.snd (Store.insertIfAbsent_of_free hjobs hfresh hfree)

/-- A periodic job that is due is inserted. -/
theorem schedule_of_isDue {t : Task} {p : Periodic} {s : Session} (hname : t.name.isEmpty = false)
    (h : t.IsDue p s) : ∃ job : Job, job.IsNew ∧ job.id = .numbered s.supply.drawn ∧
      job.name = t.name ∧ job.label = p.blueprint.label ∧ job.data = p.blueprint.data ∧
      (Sweep.schedule t s).store = s.store.adding [job] := by
  obtain ⟨available, havailable⟩ := Option.isSome_iff_exists.mp h.delay
  have hdraft := Queue.draft_of_after? hname havailable
  have hstore := schedule_of_free h.periodic hdraft h.hasJobs h.accepted h.fresh h.free
  refine ⟨_, ?_, ?_, ?_, ?_, ?_, hstore⟩ <;> rfl

/-! ## Registration -/

/-- The task reads its payloads in a format and works on them with a handler, as `Task.new`
makes it, whatever its settings. -/
structure Task.Handles {α β : Type} (t : Task) (payload : Format α) (result : Format β)
    (handler : Handler α β) : Prop where
  execute : t.execute = executeWith payload result handler
  checkPayload : t.checkPayload = fun v => (payload.decode v).map fun _ => ()

theorem Task.of_validate {t : Task} (h : t.validate = .ok ()) :
    t.name.isEmpty = false ∧ t.checkPeriodic = .ok () :=
  have husable := validate_eq_ok_iff.mp h
  ⟨husable.name, checkPeriodic_eq_ok_iff.mpr husable.periodic⟩

theorem Pool.validate_of_add {pool pool' : Pool} {t : Task} (h : pool.add t = .ok pool') :
    t.validate = .ok () := by
  rw [add] at h
  obtain ⟨⟨⟩, hvalid, -⟩ := bind_eq_ok h
  exact hvalid

namespace Task.Handles

variable {α β : Type} {t : Task} {payload : Format α} {result : Format β} {handler : Handler α β}

/-- A payload that is accepted with a task is decoded. -/
theorem exists_decode (h : t.Handles payload result handler) (hcheck : t.checkPeriodic = .ok ())
    {p : Periodic} (hp : t.periodic = some p) :
    ∃ model, payload.decode p.blueprint.data = .ok model := by
  rw [checkPeriodic, hp] at hcheck
  obtain ⟨-, -, hcheck⟩ := bind_eq_ok hcheck
  rw [h.checkPayload] at hcheck
  cases hdecode : payload.decode p.blueprint.data with
  | error e =>
      simp only [hdecode] at hcheck
      cases hcheck
  | ok model => exact ⟨model, rfl⟩

end Task.Handles

/-! ## Attempts -/

/-- What a run of a handler comes to. -/
def Run.execution {β : Type} (result : Format β) (run : Run β) : Execution where
  result := run.verdict.toResult result
  store := run.store
  slept := run.slept

/-- A handler sees a job with its decoded payload, as the row of its attempt tells it. -/
structure Context.Shows {α : Type} (ctx : Context α) (job : Job) (model : α) (attempts : Int) :
    Prop where
  model : ctx.model = model
  id : ctx.id = job.id
  name : ctx.name = Column.readable job.name
  label : ctx.label = Column.readable job.label
  attempt : (ctx.attempt.toNat : Int) = attempts

/-- What is read from the row of a job that is inserted once. -/
theorem shows_of_claim {s : Store} {job : Job} (hdata : job.data.IsKept)
    {name : String} {now : Instant} {r : Row} {j : Job} (hsame : SameJob (Row.ofJob job) r)
    (hr : s.claimable name now = some r) (hclaim : (s.claim name now).1 = .ok (some j)) :
    j.data = job.data ∧ ∀ {α : Type} (model : α) (present : Instant),
      (Task.context model j present).Shows job model (r.attempts + 1) := by
  obtain ⟨x, r', hx, -, hch, hreads⟩ := Store.reads_of_claim hclaim
  obtain rfl : r = x := Option.some.inj (hr.symm.trans hx)
  have hrow : SameJob (Row.ofJob job) r' := hsame.trans hch.sameJob
  have hname : Row.readRequired 1 r'.name = .ok j.name := hreads.name
  have hlabel : Row.readRequired 2 r'.label = .ok j.label := hreads.label
  rw [hrow.name] at hname
  rw [hrow.label] at hlabel
  refine ⟨hreads.data_eq hrow.data hdata.parse_render, fun model present => ⟨rfl, ?_, ?_, ?_, ?_⟩⟩
  · exact hreads.id_eq hrow.id
  · exact (Except.ok.inj hname).symm
  · exact (Except.ok.inj hlabel).symm
  · have hattempts : r'.attempts = r.attempts + 1 := hch.attempts_eq
    exact hreads.attempts.symm.trans hattempts

/-- The periodic job of a task that a pool has accepted is inserted when it is due. Whatever is
called then, an attempt at the job gets past its payload: the handler runs, and sees the payload
decoded, and the job as its row tells it. -/
theorem recurring_reaches_handler {α β : Type} {payload : Format α} {result : Format β}
    {handler : Handler α β} {t : Task} (hbound : t.Handles payload result handler)
    {pool pool' : Pool} (hadd : pool.add t = .ok pool') {p : Periodic}
    (hdata : p.blueprint.data.IsKept) {s : Session} (hdue : t.IsDue p s) :
    ∃ (job : Job) (model : α), payload.decode p.blueprint.data = .ok model ∧ job.IsNew ∧
      job.name = t.name ∧ job.label = p.blueprint.label ∧ job.data = p.blueprint.data ∧
      (Sweep.schedule t s).store = s.store.adding [job] ∧
      ∀ cs, job.id ∉ insertedIds cs → ∀ (name : String) (now : Instant) (r : Row) (j : Job),
        ((Sweep.schedule t s).store.after cs).claimable name now = some r →
        r.id = .text job.id.text →
        (((Sweep.schedule t s).store.after cs).claim name now).1 = .ok (some j) →
        payload.decode j.data = .ok model ∧ ∀ present store, ∃ ctx : Context α,
          ctx.Shows job model (r.attempts + 1) ∧
          t.execute j present store = (handler ctx present store).execution result := by
  obtain ⟨hname, hcheck⟩ := Task.of_validate (Pool.validate_of_add hadd)
  obtain ⟨model, hmodel⟩ := hbound.exists_decode hcheck hdue.periodic
  obtain ⟨job, hnew, hjob, hjobName, hlabel, hjobData, hstore⟩ := schedule_of_isDue hname hdue
  refine ⟨job, model, hmodel, hnew, hjobName, hlabel, hjobData, hstore, ?_⟩
  intro cs honce name now r j hr hid hclaim
  have hfresh : s.store.hasId job.id.text = false := by
    rw [hjob]
    exact hdue.fresh
  rw [hstore] at hr hclaim
  have hsame := sameJob_of_inserted hfresh honce (Store.mem_of_claimable hr).1 hid
  obtain ⟨hread, hshows⟩ := shows_of_claim (hjobData ▸ hdata) hsame hr hclaim
  have hdecode : payload.decode j.data = .ok model := by rw [hread, hjobData, hmodel]
  refine ⟨hdecode, fun present store => ⟨_, hshows model present, ?_⟩⟩
  rw [hbound.execute]
  simp only [Task.executeWith, hdecode, Run.execution]

/-! ## Samples -/

/-- A task whose periodic job has the given label. -/
def Task.labelled (label : String) : Task :=
  { Task.new "tick" .unit .unit (.pure fun _ => .returned ()) with
    periodic := some ⟨.ofSecs 60, ⟨label, .null, .zero⟩⟩ }

/-- Its job. -/
def Job.labelled (label : String) : Job := .new (.numbered 0) "tick" label .null .epoch .epoch

/-- A session without jobs. -/
def Session.idle : Session := ⟨.reliable .empty, .still .epoch⟩

theorem labelled_accepted (label : String) :
    ∃ pool, (Pool.new {}).add (.labelled label) = .ok pool := by
  have hvalid : (Task.labelled label).validate = .ok () := Task.validate_eq_ok_iff.mpr
    { Task.usable_new (by decide) .unit .unit (.pure fun _ => .returned ()) with
      periodic := fun p hp => Option.some.inj hp ▸ ⟨rfl, rfl⟩ }
  exact ⟨_, by rw [Pool.add, hvalid]; rfl⟩

theorem labelled_isDue (label : String) :
    (Task.labelled label).IsDue ⟨.ofSecs 60, ⟨label, .null, .zero⟩⟩ .idle where
  periodic := rfl
  hasJobs := Schema.hasJobs_current
  accepted := rfl
  delay := congrArg Option.isSome (Instant.after?_zero .epoch)
  fresh := rfl
  free _ h := absurd h List.not_mem_nil

theorem schedule_labelled (label : String) :
    (Sweep.schedule (.labelled label) .idle).store = ⟨.current, [Row.ofJob (.labelled label)]⟩ := by
  have hdraft : Queue.draft "tick" ⟨label, .null, .zero⟩ .idle = (.ok (.labelled label), _) :=
    Queue.draft_of_after? (by decide) (Instant.after?_zero .epoch)
  exact schedule_of_free rfl hdraft Schema.hasJobs_current rfl rfl fun _ h =>
    absurd h List.not_mem_nil

/-- The job as it is read after a claim. -/
def Job.claimedLabelled (label : String) : Job :=
  { Job.labelled (Column.readable label) with
    status := .dequeued
    started := some .epoch
    attempts := 1
    events := [⟨.epoch, .enqueued, ""⟩, ⟨.epoch, .dequeued, ""⟩] }

theorem toJob_labelled (label : String) :
    (claimedRow (.labelled label) .epoch).toJob = .ok (.claimedLabelled label) := by
  have hname : Row.readRequired 1 (.text "tick") = .ok "tick" := by rfl
  have hdata := Row.read_data null_isKept.parse_render
  have hstamp (index : Nat) :
      (Row.readRequired index (Row.ofInstant .epoch) >>= Row.readStamp) = .ok .epoch := by rfl
  have hstarted : Row.readOptional 7 Row.readStamp (Row.ofInstant .epoch) = .ok (some .epoch) := by
    rfl
  exact Row.toJob_of_reads
    { id := Row.read_id _
      name := hname
      label := rfl
      data := hdata
      status := rfl
      created := hstamp 5
      available := hstamp 6
      started := hstarted
      ended := rfl
      finished := rfl
      attempts := rfl
      events := Row.read_events _
      result := rfl
      error := rfl
      reason := rfl }

theorem claim_labelled (label : String) :
    (Sweep.schedule (.labelled label) .idle).store.claim "tick" .epoch =
      (.ok (some (.claimedLabelled label)), ⟨.current, [claimedRow (.labelled label) .epoch]⟩) := by
  have hclaim : (Store.mk .current [Row.ofJob (.labelled label)]).claim "tick" .epoch = _ :=
    claim_alone (j := .labelled label) rfl (upTo_ofInstant .epoch)
  rw [schedule_labelled, hclaim, toJob_labelled]
  rfl

/-- The numbers of a night. -/
def numbers : Blueprint := ⟨"night", .arr [.int 7, .int (-2)], .ofSecs 5⟩

/-- A task that adds up the numbers of a night. -/
def Task.tally : Task :=
  { Task.new "tick" (.list .i64) .i64 (.pure fun ctx => .returned ctx.model.sum) with
    periodic := some ⟨.ofSecs 5, numbers⟩ }

/-- Its job that is made at some second. -/
def Job.night (n : Nat) (created available : UInt8) : Job :=
  .new (.numbered n) "tick" "night" numbers.data (.ofSecond created) (.ofSecond available)

/-- A night that is done. -/
def Job.doneNight : Job :=
  ((Job.night 1 0 0).withClaim (.ofSecond 1)).withOutcome (.completed (.int 5)) (.ofSecond 2)

/-- A session at the tenth second, with a mail and a night that is done. -/
def Session.nightly : Session :=
  ⟨.reliable (.ofJobs [.sample, .doneNight]), { Supply.still (.ofSecond 10) with drawn := 2 }⟩

/-- The mail is claimed, and so is the next night. The latter claim is taken back. -/
def nightCalls : List Call :=
  [.claim "mail" (.ofSecond 12), .claim "tick" (.ofSecond 15),
    .requeue "tick" (.ofSecond 20) (.ofSecond 25)]

theorem tally_handles : Task.tally.Handles (.list .i64) .i64
    (.pure fun ctx => .returned ctx.model.sum) := ⟨rfl, rfl⟩

theorem tally_accepted : ∃ pool, (Pool.new {}).add .tally = .ok pool := by
  have hvalid : Task.tally.validate = .ok () := Task.validate_eq_ok_iff.mpr
    { Task.usable_new (by decide) (.list .i64) .i64 (.pure fun ctx => .returned ctx.model.sum) with
      periodic := fun p hp => Option.some.inj hp ▸ ⟨rfl, rfl⟩ }
  exact ⟨_, by rw [Pool.add, hvalid]; rfl⟩

theorem numbers_isKept : numbers.data.IsKept where
  storable := ⟨by decide, ⟨by decide, by decide⟩, ⟨by decide, by decide⟩, trivial⟩
  exact := ⟨trivial, trivial, trivial⟩

theorem night_isWhole (n : Nat) (created available : UInt8) :
    (Job.night n created available).IsWhole :=
  Job.isWhole_new (by rfl) (by rfl) numbers_isKept (Instant.isWhole_ofSecond created)
    (Instant.isWhole_ofSecond available)

theorem tally_isDue : Task.tally.IsDue ⟨.ofSecs 5, numbers⟩ .nightly where
  periodic := rfl
  hasJobs := Schema.hasJobs_current
  accepted := rfl
  delay := by decide
  fresh := by decide +kernel
  free r hr hname _ := by
    rcases List.mem_pair.mp hr with rfl | rfl
    · exact absurd (Column.text.inj hname) (by decide)
    · have hcutoff : Session.nightly.supply.clock.before (.ofSecs 5) = .ofSecond 5 := by decide
      refine ⟨Stamp.ofInstant (.ofSecond 2), rfl, ?_⟩
      rw [hcutoff, ← String.not_lt, Stamp.ofInstant_lt_iff, (Instant.isWhole_ofSecond 2).stamped,
        (Instant.isWhole_ofSecond 5).stamped]
      decide

theorem schedule_tally : (Sweep.schedule .tally .nightly).store =
    .ofJobs [.sample, .doneNight, .night 2 10 15] := by
  have hdraft : Queue.draft "tick" numbers .nightly = (.ok (.night 2 10 15), _) :=
    Queue.draft_of_after? (by decide) rfl
  exact schedule_of_free rfl hdraft Schema.hasJobs_current rfl tally_isDue.fresh tally_isDue.free

theorem doneNight_isWhole : Job.doneNight.IsWhole := by
  have hsum : (Json.int 5).IsKept := ⟨⟨by decide, ⟨by decide, by decide⟩⟩, trivial⟩
  exact ((night_isWhole 1 0 0).withClaim (Instant.isWhole_ofSecond 1)).withOutcome hsum
    (Instant.isWhole_ofSecond 2)

/-- The mail after those calls. -/
def Job.takenMail : Job := Job.sample.withClaim (.ofSecond 12)

/-- The night while it is claimed. -/
def Job.takenNight : Job := (Job.night 2 10 15).withClaim (.ofSecond 15)

/-- The night after those calls. -/
def Job.nightAgain : Job := Job.takenNight.withoutClaim (.ofSecond 25)

theorem takenMail_isWhole : Job.takenMail.IsWhole :=
  Job.isWhole_sample.withClaim (Instant.isWhole_ofSecond 12)

theorem nightAgain_isWhole : Job.nightAgain.IsWhole :=
  ((night_isWhole 2 10 15).withClaim (Instant.isWhole_ofSecond 15)).withoutClaim
    (Instant.isWhole_ofSecond 25)

theorem after_nightCalls : (Sweep.schedule .tally .nightly).store.after nightCalls =
    .ofJobs [.takenMail, .doneNight, .nightAgain] := by
  have hmail : (Store.ofJobs [.sample, .doneNight, .night 2 10 15]).claim "mail" (.ofSecond 12) =
      (.ok (some .takenMail), .ofJobs [.takenMail, .doneNight, .night 2 10 15]) := by
    have hnow := Instant.isWhole_ofSecond 12
    refine Store.claim_ofJobs [] [.doneNight, .night 2 10 15] (by decide) Job.isWhole_sample hnow
      (Store.claimable_ofJobs [] _ ?_ hnow ⟨rfl, by decide⟩ (by decide)) (by decide)
    simp [Job.isWhole_sample, doneNight_isWhole, night_isWhole]
  have hnight : (Store.ofJobs [.takenMail, .doneNight, .night 2 10 15]).claim "tick"
      (.ofSecond 15) = (.ok (some .takenNight), .ofJobs [.takenMail, .doneNight, .takenNight]) := by
    have hnow := Instant.isWhole_ofSecond 15
    refine Store.claim_ofJobs [.takenMail, .doneNight] [] (by decide) (night_isWhole 2 10 15) hnow
      (Store.claimable_ofJobs [_, _] [] ?_ hnow ⟨rfl, by decide⟩ (by decide)) (by decide)
    simp [takenMail_isWhole, doneNight_isWhole, night_isWhole]
  have hrequeue := Store.requeue_ofJobs [.takenMail, .doneNight] [] (j := .takenNight) (by decide)
    rfl (Instant.isWhole_ofSecond 15) (Instant.isWhole_ofSecond 20) rfl (by decide) (.ofSecond 25)
  rw [schedule_tally, nightCalls, Store.after_cons, Call.next, hmail, Store.after_cons, Call.next,
    hnight, Store.after_cons, Store.after_nil, Call.next]
  exact hrequeue

/-- For instance of the second attempt at a job. -/
theorem recurring_tally : ∃ (pool : Pool) (job j : Job),
    (Pool.new {}).add .tally = .ok pool ∧ Task.tally.IsDue ⟨.ofSecs 5, numbers⟩ .nightly ∧
      (((Sweep.schedule .tally .nightly).store.after nightCalls).claim "tick" (.ofSecond 30)).1 =
        .ok (some j) ∧
      ∀ present store, ∃ ctx : Context (List Int64), ctx.Shows job [7, -2] 2 ∧
        Task.tally.execute j present store =
          Run.execution .i64 { verdict := .returned 5, store } := by
  obtain ⟨pool, hadd⟩ := tally_accepted
  obtain ⟨job, model, hmodel, -, -, -, -, hstore, hreach⟩ :=
    recurring_reaches_handler tally_handles hadd numbers_isKept tally_isDue
  have hdecode : (Format.list .i64).decode numbers.data = .ok [7, -2] := by rfl
  obtain rfl := Except.ok.inj (hdecode.symm.trans hmodel)
  have hrow : Row.ofJob job = Row.ofJob (.night 2 10 15) := by
    have hrows := congrArg Store.rows (hstore.symm.trans schedule_tally)
    exact (List.cons.inj (List.cons.inj (List.cons.inj hrows).2).2).1
  have hid : job.id = .numbered 2 :=
    JobId.text_inj.mp (Column.text.inj (congrArg Row.id hrow))
  have hnext : (Store.ofJobs [.takenMail, .doneNight, .nightAgain]).claimable "tick"
      (.ofSecond 30) = some (.ofJob .nightAgain) := by
    refine Store.claimable_ofJobs [.takenMail, .doneNight] [] ?_ (Instant.isWhole_ofSecond 30)
      ⟨rfl, by decide⟩ (by decide)
    simp [takenMail_isWhole, doneNight_isWhole, nightAgain_isWhole]
  have hclaim := congrArg Prod.fst (Store.claim_ofJobs [.takenMail, .doneNight] [] (by decide)
    nightAgain_isWhole (Instant.isWhole_ofSecond 30) hnext (by decide))
  obtain ⟨-, hruns⟩ := hreach nightCalls List.not_mem_nil "tick" (.ofSecond 30) _ _
    (by rw [after_nightCalls]; exact hnext) (by rw [hid]; rfl)
    (by rw [after_nightCalls]; exact hclaim)
  refine ⟨pool, job, _, hadd, tally_isDue, by rw [after_nightCalls]; exact hclaim,
    fun present store => ?_⟩
  obtain ⟨ctx, hshows, hexec⟩ := hruns present store
  refine ⟨ctx, hshows, hexec.trans ?_⟩
  rw [Handler.pure, hshows.model]
  rfl

/-- What stands behind a NUL in a label does not reach the handler. -/
theorem recurring_label_cut : ∃ (pool : Pool) (job j : Job),
    (Pool.new {}).add (.labelled "night\x00b") = .ok pool ∧
      (Task.labelled "night\x00b").IsDue ⟨.ofSecs 60, ⟨"night\x00b", .null, .zero⟩⟩ .idle ∧
      (Sweep.schedule (.labelled "night\x00b") .idle).store = Session.idle.store.adding [job] ∧
      ((Sweep.schedule (.labelled "night\x00b") .idle).store.claim "tick" .epoch).1 =
        .ok (some j) ∧ j.id = job.id ∧
      ∀ present, (Task.context () j present).label ≠ job.label := by
  obtain ⟨pool, hadd⟩ := labelled_accepted "night\x00b"
  have hcut : Column.readable "night\x00b" ≠ "night\x00b" := by decide
  exact ⟨pool, .labelled "night\x00b", _, hadd, labelled_isDue _, schedule_labelled _,
    congrArg Prod.fst (claim_labelled _), rfl, fun _ => hcut⟩

end JobQueue
