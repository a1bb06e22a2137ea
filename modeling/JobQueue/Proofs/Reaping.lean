import JobQueue.Proofs.Cutoffs
import JobQueue.Proofs.Permanence
import JobQueue.Proofs.Producers
import JobQueue.Proofs.Spacing
import Mathlib.Data.List.Forall2
import Mathlib.Data.List.Nodup

/-!
# JobQueue.Proofs.Reaping

What a sweep does to the rows that there are.

- A pass over one task takes back its claims and adds at most one row, which is that of a new
  job (`recover_of_reached`, `schedule_adds`).
- So a sweep takes back the claim of each row once, if it is stale for one of the tasks, and
  adds rows of new jobs, which it leaves alone (`sweep_rows`).
- Stale are those claims of the tasks that have outlived them (`any_isStaleFor_iff`): a claim is
  taken back if it is overdue, and every other row stays as it is (`reaps_overdue`).
-/

namespace JobQueue

/-! ## Stores after calls -/

/-- A store after some calls that insert new jobs. -/
def Store.Reached (s : Store) : Prop := ∃ cs, AllNew cs ∧ s = Store.empty.after cs

namespace Store.Reached

variable {s s' : Store}

theorem hasJobs (h : s.Reached) : s.schema.hasJobs := by
  obtain ⟨cs, -, rfl⟩ := h
  exact hasJobs_after cs

theorem typed (h : s.Reached) {r : Row} (hr : r ∈ s.rows) : r.Typed := by
  obtain ⟨cs, -, rfl⟩ := h
  exact typed_after cs r hr

theorem audited (h : s.Reached) {r : Row} (hr : r ∈ s.rows) : r.Audited := by
  obtain ⟨cs, hcs, rfl⟩ := h
  exact (consistent_after hcs hr).2

/-- More calls that insert new jobs. -/
theorem becomes (h : s.Reached) {P : Call → Prop} (hbecomes : s.Becomes P s')
    (hP : ∀ c, P c → ∀ j, c.job? = some j → j.IsNew) : s'.Reached := by
  obtain ⟨cs, hcs, rfl⟩ := h
  obtain ⟨ds, rfl, hds⟩ := hbecomes
  refine ⟨cs ++ ds, fun c hc => ?_, (Store.after_append _ _ _).symm⟩
  exact (List.mem_append.mp hc).elim (hcs c) fun hd => hP c (hds c hd)

end Store.Reached

theorem Task.Sweeps.isNew {t : Task} {now : Instant} {c : Call} (h : t.Sweeps now c) {j : Job}
    (hj : c.job? = some j) : j.IsNew := by
  obtain rfl | ⟨p, i, -, hnew, -, -, -, rfl⟩ := h
  · cases hj
  · cases hj
    exact hnew

/-! ## Claims that are taken back -/

namespace Row

variable {r : Row} {now : Instant}

/-- The row is claimed for a task, since before its lifetime. -/
def isStaleFor (r : Row) (now : Instant) (t : Task) : Bool :=
  r.isStale t.name (Stamp.ofInstant (now.before t.lifetime))

/-- The row after its claim was taken back, if it is stale for one of some tasks. -/
def reaped (tasks : List Task) (now : Instant) (r : Row) : Row :=
  if tasks.any (r.isStaleFor now) then (r.requeued now).getD r else r

/-- A row that waits is not stale. -/
theorem isStaleFor_of_enqueued (h : r.status = ofStatus .enqueued) (now : Instant) (t : Task) :
    r.isStaleFor now t = false := by
  rw [Bool.eq_false_iff]
  intro hstale
  have hstatus := status_of_isStale hstale
  rw [h] at hstatus
  exact absurd (ofStatus_inj.mp hstatus) (by decide)

theorem reaped_of_not_any {tasks : List Task} (h : tasks.any (r.isStaleFor now) = false) :
    r.reaped tasks now = r := by
  rw [reaped, h, if_neg (by decide)]

theorem reaped_of_enqueued (h : r.status = ofStatus .enqueued) (tasks : List Task) :
    r.reaped tasks now = r :=
  reaped_of_not_any (List.any_eq_false.mpr fun t _ => by simp [isStaleFor_of_enqueued h])

/-- A claim is taken back once: for the first task that the row is stale for. -/
theorem reaped_append (tasks tasks' : List Task) (r : Row) :
    (r.reaped tasks now).reaped tasks' now = r.reaped (tasks ++ tasks') now := by
  rw [reaped.eq_1 (tasks ++ tasks'), List.any_append]
  by_cases hstale : tasks.any (r.isStaleFor now)
  · rw [hstale, Bool.true_or, if_pos rfl, reaped.eq_1 tasks, if_pos hstale]
    cases hnew : r.requeued now with
    | none =>
        -- a row without a log stays as it is
        rw [Option.getD_none, reaped, hnew, Option.getD_none, ite_self]
    | some r' =>
        obtain ⟨events, -, rfl⟩ := requeued_eq_some hnew
        exact reaped_of_enqueued rfl tasks'
  · rw [Bool.eq_false_iff.mpr hstale, Bool.false_or,
      reaped_of_not_any (Bool.eq_false_iff.mpr hstale), reaped]

theorem released_eq_reaped (t : Task) (r : Row) :
    r.released t.name (now.before t.lifetime) now = r.reaped [t] now := by
  rw [reaped, List.any_cons, List.any_nil, Bool.or_false]
  rfl

theorem map_reaped_nil (now : Instant) (rows : List Row) : rows.map (reaped [] now) = rows :=
  (List.map_congr_left fun _ _ => reaped_of_not_any rfl).trans (List.map_id rows)

/-- After a pass over one task, which adds rows that wait, claims are taken back for the
others. -/
theorem map_reaped_cons (t : Task) (tasks : List Task) (now : Instant) (rows : List Row)
    {new : List Job} (hnew : ∀ j ∈ new, j.IsNew) :
    (rows.map (reaped [t] now) ++ new.map ofJob).map (reaped tasks now) =
      rows.map (reaped (t :: tasks) now) ++ new.map ofJob := by
  have hwait : (new.map ofJob).map (reaped tasks now) = new.map ofJob := by
    rw [List.map_map]
    exact List.map_congr_left fun j hj => reaped_of_enqueued (status_ofJob (hnew j hj)) tasks
  rw [List.map_append, hwait, List.map_map]
  exact congrArg (· ++ _) (List.map_congr_left fun r _ => reaped_append [t] tasks r)

end Row

/-! ## Passes -/

/-- The store with the rows of more jobs. -/
def Store.adding (s : Store) (new : List Job) : Store :=
  { s with rows := s.rows ++ new.map Row.ofJob }

@[simp] theorem Store.adding_nil (s : Store) : s.adding [] = s := by
  rw [adding, List.map_nil, List.append_nil]

/-- What is inserted if absent over a link is added, or it is not. -/
theorem Link.insertIfAbsent_cases (l : Link) (j : Job) (t : Instant) :
    (l.insertIfAbsent j t).2.refusals.requeue = l.refusals.requeue ∧
      ((l.insertIfAbsent j t).2.store = l.store ∨
        (l.insertIfAbsent j t).2.store = l.store.adding [j]) := by
  rw [insertIfAbsent]
  split
  · exact ⟨rfl, .inl rfl⟩
  · refine ⟨rfl, ?_⟩
    rcases l.store.insertIfAbsent_cases j t with ⟨a, -, heq⟩ | ⟨-, heq⟩
    · exact .inl (congrArg Prod.snd heq)
    · exact .inr (congrArg Prod.snd heq)

theorem Queue.draft_link (name : String) (b : Blueprint) (s : Session) :
    (draft name b s).2.link = s.link := by
  rw [draft]
  dsimp only
  split <;> rfl

namespace Sweep

variable {s : Session}

/-- Where the link refuses nothing, the claims of a task that are stale are taken back. -/
theorem recover_of_reached (h : s.store.Reached) (hlink : s.link.refusals.requeue = 0) (t : Task)
    (now : Instant) :
    recover t now s =
      s.withStore { s.store with rows := s.store.rows.map (Row.reaped [t] now) } := by
  have hrequeue : s.store.requeue t.name (now.before t.lifetime) now = _ :=
    requeue_of_audited h.hasJobs fun _ hr => h.audited hr
  simp only [Row.released_eq_reaped] at hrequeue
  rw [Session.store] at hrequeue ⊢
  rw [recover, Link.requeue, hlink]
  simp only [Link.lift, hrequeue]
  rfl

theorem schedule_of_none {t : Task} (h : t.periodic = none) (s : Session) :
    schedule t s = s := by
  rw [schedule, h]

/-- No job is inserted if none can be drafted. -/
theorem schedule_of_error {t : Task} {p : Periodic} (h : t.periodic = some p) {e : EnqueueError}
    {s' : Session} (hdraft : Queue.draft t.name p.blueprint s = (.error e, s')) :
    schedule t s = s' := by
  rw [schedule, h]
  simp only [Queue.enqueueBlueprint, hdraft]

/-- What is drafted is inserted, unless another job of its name and label keeps it away. -/
theorem schedule_of_ok {t : Task} {p : Periodic} (h : t.periodic = some p) {j : Job}
    {s' : Session} (hdraft : Queue.draft t.name p.blueprint s = (.ok j, s')) :
    schedule t s =
      { s' with link := (s'.link.insertIfAbsent j (j.created.before p.every)).2 } := by
  rw [schedule, h]
  simp only [Queue.enqueueBlueprint, hdraft, Queue.insertIfAbsent]

/-- A pass adds the row of one new job of its task, or none. -/
theorem schedule_adds (t : Task) (s : Session) : ∃ new : List Job,
    (∀ j ∈ new, j.IsNew ∧ j.name = t.name) ∧
      (schedule t s).store = s.store.adding new ∧
      (schedule t s).link.refusals.requeue = s.link.refusals.requeue := by
  have hnone {s' : Session} (hstore : s'.store = s.store)
      (hrefusals : s'.link.refusals.requeue = s.link.refusals.requeue) : ∃ new : List Job,
        (∀ j ∈ new, j.IsNew ∧ j.name = t.name) ∧ s'.store = s.store.adding new ∧
          s'.link.refusals.requeue = s.link.refusals.requeue :=
    ⟨[], fun _ h => absurd h List.not_mem_nil, by rw [hstore, Store.adding_nil], hrefusals⟩
  cases hp : t.periodic with
  | none => exact hnone (by rw [schedule_of_none hp]) (by rw [schedule_of_none hp])
  | some p =>
      have hlink := Queue.draft_link t.name p.blueprint s
      rcases hdraft : Queue.draft t.name p.blueprint s with ⟨e | j, s'⟩
      · rw [hdraft] at hlink
        rw [schedule_of_error hp hdraft]
        exact hnone (congrArg Link.store hlink) (by rw [hlink])
      · rw [hdraft] at hlink
        obtain ⟨hnew, hname, -, -⟩ := Queue.draft_isNew hdraft
        obtain ⟨hrefusals, hstore⟩ := Link.insertIfAbsent_cases s.link j (j.created.before p.every)
        rw [schedule_of_ok hp hdraft, hlink]
        rcases hstore with hstore | hstore
        · exact hnone hstore hrefusals
        · refine ⟨[j], fun i hi => ?_, hstore, hrefusals⟩
          rw [List.mem_singleton.mp hi]
          exact ⟨hnew, hname⟩

theorem sweep_cons (t : Task) (tasks : List Task) (now : Instant) (s : Session) :
    sweep (t :: tasks) now s = sweep tasks now (schedule t (recover t now s)) := rfl

theorem reached_pass (h : s.store.Reached) (t : Task) (now : Instant) :
    (schedule t (recover t now s)).store.Reached :=
  h.becomes ((recover_becomes t now s).trans (schedule_becomes t now _)) fun _ hc _ hj =>
    hc.isNew hj

/-- A sweep takes back the claim of each row that is stale for one of its tasks, and adds the
rows of new jobs. -/
theorem sweep_rows (h : s.store.Reached) (hlink : s.link.refusals.requeue = 0)
    (tasks : List Task) (now : Instant) : ∃ new : List Job,
      (∀ j ∈ new, j.IsNew ∧ ∃ t ∈ tasks, j.name = t.name) ∧
        (sweep tasks now s).store.rows =
          s.store.rows.map (Row.reaped tasks now) ++ new.map Row.ofJob := by
  induction tasks generalizing s with
  | nil =>
      refine ⟨[], fun _ h => absurd h List.not_mem_nil, ?_⟩
      rw [Row.map_reaped_nil, List.map_nil, List.append_nil]
      rfl
  | cons t tasks ih =>
      have hrecover := recover_of_reached h hlink t now
      obtain ⟨new, hnew, hstore, hrefusals⟩ := schedule_adds t (recover t now s)
      have hlink' : (schedule t (recover t now s)).link.refusals.requeue = 0 := by
        rw [hrefusals, hrecover]
        exact hlink
      obtain ⟨more, hmore, hrows⟩ := ih (reached_pass h t now) hlink'
      refine ⟨new ++ more, fun j hj => ?_, ?_⟩
      · rcases List.mem_append.mp hj with hj | hj
        · obtain ⟨hjnew, hjname⟩ := hnew j hj
          exact ⟨hjnew, t, List.mem_cons_self, hjname⟩
        · obtain ⟨hjnew, u, hu, hjname⟩ := hmore j hj
          exact ⟨hjnew, u, List.mem_cons_of_mem t hu, hjname⟩
      · have hwait := Row.map_reaped_cons t tasks now s.store.rows fun j hj => (hnew j hj).1
        rw [sweep_cons, hrows, hstore, hrecover, Store.adding, List.map_append (f := Row.ofJob),
          ← List.append_assoc]
        exact congrArg (· ++ _) hwait

end Sweep

/-! ## Overdue claims -/

namespace Row

/-- The row is claimed for one of some tasks and was so for longer than its lifetime. -/
def IsOverdue (r : Row) (tasks : List Task) (now : Instant) : Prop :=
  ∃ t ∈ tasks, r.name = .text t.name ∧ r.status = ofStatus .dequeued ∧
    r.started.IsOlder now t.lifetime

/-- The row waits again from now on, as one more event tells; nothing else is changed. -/
def TakenBack (r : Row) (now : Instant) (r' : Row) : Prop :=
  ∃ es, r.events = .text (Log.text es) ∧
    r' = { r with
      status := ofStatus .enqueued
      available := ofInstant now
      events := .text (Log.text (es ++ [⟨now, .enqueued, "lifetime exceeded"⟩])) }

/-- What a sweep makes of a row. -/
structure Swept (r : Row) (tasks : List Task) (now : Instant) (r' : Row) : Prop where
  takenBack : r.IsOverdue tasks now → r.TakenBack now r'
  kept : ¬ r.IsOverdue tasks now → r' = r

variable {r : Row} {tasks : List Task} {now : Instant}

/-- Claims are stale that have outlived their tasks. -/
theorem any_isStaleFor_iff (hr : r.Typed) (hstamp : now.HasStamp) (hleap : now.isLeap = false) :
    tasks.any (r.isStaleFor now) ↔ r.IsOverdue tasks now := by
  rw [List.any_eq_true]
  refine exists_congr fun t => and_congr_right fun _ => ?_
  rw [isStaleFor, isStale, Bool.and_eq_true, Bool.and_eq_true, is_iff, hasStatus_iff,
    before_iff_isOlder hr.started hstamp hleap, and_assoc]

theorem takenBack_requeued (hr : r.Audited) (now : Instant) :
    r.TakenBack now ((r.requeued now).getD r) := by
  obtain ⟨es, hevents, -⟩ := hr
  exact ⟨es, hevents, by rw [requeued_text hevents, Option.getD_some]; rfl⟩

/-- The claim of a row is taken back if it is overdue. -/
theorem swept_reaped (ht : r.Typed) (ha : r.Audited) (hstamp : now.HasStamp)
    (hleap : now.isLeap = false) : r.Swept tasks now (r.reaped tasks now) where
  takenBack h := by
    rw [reaped, if_pos ((any_isStaleFor_iff ht hstamp hleap).mpr h)]
    exact takenBack_requeued ha now
  kept h := if_neg fun hany => h ((any_isStaleFor_iff ht hstamp hleap).mp hany)

/-- Where names are distinct, a row is claimed for one task. -/
theorem isOverdue_iff (hnames : (tasks.map Task.name).Nodup) {t : Task} (ht : t ∈ tasks)
    (hname : r.name = .text t.name) (hstatus : r.status = ofStatus .dequeued) :
    r.IsOverdue tasks now ↔ r.started.IsOlder now t.lifetime := by
  constructor
  · rintro ⟨u, hu, huname, -, holder⟩
    have hsame : u.name = t.name := Column.text.inj (huname.symm.trans hname)
    rwa [List.inj_on_of_nodup_map hnames hu ht hsame] at holder
  · exact fun holder => ⟨t, ht, hname, hstatus, holder⟩

end Row

/-! ## Sweeps -/

/-- Whatever was called, a sweep over a link that refuses nothing takes back the claims that are
overdue, once each, leaves every other row as it is, and adds rows of new jobs of its tasks. So
a claim is never taken back before its lifetime has passed, and always a microsecond after
that. -/
theorem reaps_overdue {cs : List Call} (hcs : AllNew cs) {s : Session}
    (hstore : s.store = Store.empty.after cs) (hlink : s.link.refusals.requeue = 0)
    {tasks : List Task} (hnames : (tasks.map Task.name).Nodup) {now : Instant}
    (hstamp : now.HasStamp) (hleap : now.isLeap = false) :
    (∃ rows : List Row, ∃ new : List Job,
      (Sweep.sweep tasks now s).store.rows = rows ++ new.map Row.ofJob ∧
        List.Forall₂ (fun r r' => r.Swept tasks now r') s.store.rows rows ∧
        ∀ j ∈ new, j.IsNew ∧ ∃ t ∈ tasks, j.name = t.name) ∧
      ∀ r ∈ s.store.rows, r.status = Row.ofStatus .dequeued → ∀ t ∈ tasks,
        r.name = .text t.name → ∀ start : Instant, start.HasStamp → start.isLeap = false →
          r.started = Row.ofInstant start →
          (now.toNanos ≤ start.toNanos + t.lifetime.nanos → ¬ r.IsOverdue tasks now) ∧
            (start.toNanos + t.lifetime.nanos + 1000 ≤ now.toNanos → r.IsOverdue tasks now) := by
  have hreached : s.store.Reached := ⟨cs, hcs, hstore⟩
  refine ⟨?_, fun r _ hstatus t ht hname start hs hsleap hstarted => ?_⟩
  · obtain ⟨new, hnew, hrows⟩ := Sweep.sweep_rows hreached hlink tasks now
    refine ⟨_, new, hrows, ?_, hnew⟩
    rw [List.forall₂_map_right_iff, List.forall₂_same]
    exact fun r hr => Row.swept_reaped (hreached.typed hr) (hreached.audited hr) hstamp hleap
  · rw [Row.isOverdue_iff hnames ht hname hstatus, hstarted, Row.isOlder_ofInstant_iff]
    exact ⟨Instant.not_isOlder hs hsleap, Instant.isOlder_of_le hs hsleap hstamp hleap⟩

/-- A task whose claims last an hour. -/
def Task.hourly : Task :=
  { Task.new "mail" .unit .unit (.pure fun _ => .returned ()) with lifetime := .ofSecs 3600 }

/-- Two hours after the sample was claimed. -/
def Session.overdue : Session :=
  ⟨.reliable ⟨.current, [claimedRow .sample .epoch]⟩, { Supply.still .later with drawn := 1 }⟩

theorem allNew_overdue : AllNew [.insert .sample, .claim "mail" .epoch] :=
  AllNew.concat (jobs_insert sample_isNew) fun _ h => by cases h

theorem store_overdue :
    Session.overdue.store = Store.empty.after [.insert .sample, .claim "mail" .epoch] :=
  (after_claim sample_isNew sample_available).symm

/-- For instance of a claim that was taken two hours ago, where claims last one hour. -/
theorem reaps_overdue_sample : ∃ r ∈ Session.overdue.store.rows, ∃ r',
    r.status = Row.ofStatus .dequeued ∧ r.TakenBack .later r' ∧
      r' ∈ (Sweep.sweep [.hourly] .later .overdue).store.rows := by
  have hlater : Instant.later.HasStamp := Instant.hasStamp_iff.mpr (by decide)
  have hepoch : Instant.epoch.HasStamp := Instant.hasStamp_iff.mpr (by decide)
  have hnames : ([Task.hourly].map Task.name).Nodup := List.nodup_singleton _
  have hrows : Session.overdue.store.rows = [claimedRow .sample .epoch] := rfl
  obtain ⟨⟨rows, new, hafter, hswept, -⟩, hclaims⟩ :=
    reaps_overdue allNew_overdue store_overdue rfl hnames hlater rfl
  have hoverdue := (hclaims _ (List.mem_singleton_self _) rfl .hourly (List.mem_singleton_self _)
    rfl .epoch hepoch rfl rfl).2 (by decide)
  rw [hrows] at hswept
  cases hswept with
  | cons hr' _ =>
      refine ⟨_, List.mem_singleton_self _, _, rfl, hr'.takenBack hoverdue, ?_⟩
      rw [hafter]
      exact List.mem_append_left _ List.mem_cons_self

end JobQueue
