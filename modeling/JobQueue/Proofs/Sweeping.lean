import JobQueue.Proofs.Identity
import JobQueue.Proofs.Pending
import JobQueue.Proofs.Reaping

/-!
# JobQueue.Proofs.Sweeping

Sweeps while the clock stands still.

- A pass inserts the periodic job of its task exactly if it is due (`schedule_of_steady`), which
  neither the claims that are taken back nor the jobs of other tasks change (`dueRow?_of_passed`).
  So a sweep inserts the jobs that are due when it begins (`sweep_of_steady`).
- After a sweep no claim is stale and no job is due (`settled_of_passed`), and a sweep leaves such
  a store as it is (`sweep_of_settled`).
- So a second sweep changes nothing, and the order of the tasks decides nothing but which
  identity goes to which of the new jobs (`sweeps_settle`).
-/

namespace JobQueue

/-- The row without its identity. -/
def Row.anonymous (r : Row) : Row := { r with id := .null }

/-! ## Clocks that stand still -/

namespace Session

/-- The clock stands still, and the link refuses nothing that a sweep asks for. -/
structure Steady (s : Session) : Prop where
  readings : ∀ n, s.supply.readings n = s.supply.readings 0
  requeue : s.link.refusals.requeue = 0
  insert : s.link.refusals.insert = 0

/-- The identities that are drawn next differ from each other and from those in the store. -/
structure HasFresh (s : Session) (n : Nat) : Prop where
  bound : s.supply.drawn + n ≤ 2 ^ 122
  absent : ∀ k < n, ∀ r ∈ s.store.rows, r.id ≠ .text (JobId.numbered (s.supply.drawn + k)).text

/-- What passes make of a session whose clock stands still: each row is changed, and rows of new
jobs are added, which are given without their identities. -/
structure Passed (s : Session) (change : Row → Row) (due : List Row) (new : List Job)
    (s' : Session) : Prop where
  isNew : ∀ j ∈ new, j.IsNew
  due : new.map (fun j => (Row.ofJob j).anonymous) = due
  store : s'.store = ⟨s.store.schema, s.store.rows.map change ++ new.map Row.ofJob⟩
  steady : s'.Steady
  clock : s'.supply.clock = s.supply.clock

variable {s : Session}

theorem Steady.now_eq (h : s.Steady) : s.now = (s.supply.clock, s) := by
  have hsame : (fun n => s.supply.readings (n + 1)) = s.supply.readings :=
    funext fun n => (h.readings (n + 1)).trans (h.readings n).symm
  rw [now, Supply.read, hsame]

/-- After at most one identity was drawn, the others are fresh. -/
theorem HasFresh.drawn {n k : Nat} (h : s.HasFresh (n + 1)) (hk : k ≤ 1) {s' : Session}
    (hdrawn : s'.supply.drawn = s.supply.drawn + k)
    (hrows : ∀ r' ∈ s'.store.rows, (∃ r ∈ s.store.rows, r'.id = r.id) ∨
      k = 1 ∧ r'.id = .text (JobId.numbered s.supply.drawn).text) : s'.HasFresh n := by
  have hbound := h.bound
  refine ⟨by omega, fun i hi r' hr' => ?_⟩
  rw [hdrawn, Nat.add_assoc]
  rcases hrows r' hr' with ⟨r, hr, hid⟩ | ⟨rfl, hid⟩
  · rw [hid]
    exact h.absent (k + i) (by omega) r hr
  · rw [hid]
    intro heq
    have hsame := JobId.numbered_inj (by omega) (by omega) (JobId.text_inj.mp (Column.text.inj heq))
    omega

end Session

/-! ## Jobs that are due -/

/-- The row keeps the periodic job of a task away. -/
def Row.holdsOff (r : Row) (t : Task) (clock : Instant) : Bool :=
  match t.periodic with
  | none => false
  | some p => r.isPending t.name p.blueprint.label (Stamp.ofInstant (clock.before p.every))

namespace Task

/-- The periodic job of a task, with the identity that is drawn next, if it can be built. -/
def tick? (t : Task) (s : Session) : Option Job :=
  t.periodic.bind fun p =>
    (Queue.build (.numbered s.supply.drawn) s.supply.clock t.name p.blueprint).toOption

/-- The periodic job of a task, if no row keeps it away. -/
def due? (t : Task) (s : Session) : Option Job :=
  if s.store.rows.any (·.holdsOff t s.supply.clock) then none else t.tick? s

/-- The row of the periodic job of a task, without its identity, if it is due. -/
def dueRow? (t : Task) (s : Session) : Option Row :=
  (t.due? s).map fun j => (Row.ofJob j).anonymous

variable {t : Task} {s s' : Session}

theorem tick?_of_periodic {p : Periodic} (hp : t.periodic = some p) (s : Session) :
    t.tick? s =
      (Queue.build (.numbered s.supply.drawn) s.supply.clock t.name p.blueprint).toOption := by
  rw [tick?, hp, Option.bind_some]

theorem tick?_eq_some {j : Job} (h : t.tick? s = some j) :
    ∃ p available, t.periodic = some p ∧
      j = .new (.numbered s.supply.drawn) t.name p.blueprint.label p.blueprint.data s.supply.clock
        available := by
  obtain ⟨p, hp, hbuild⟩ := Option.bind_eq_some_iff.mp h
  rw [Queue.build] at hbuild
  split at hbuild
  · cases hbuild
  · cases havailable : s.supply.clock.after? p.blueprint.delay with
    | none =>
        rw [havailable] at hbuild
        cases hbuild
    | some available =>
        rw [havailable] at hbuild
        exact ⟨p, available, hp, (Option.some.inj hbuild).symm⟩

/-- At one instant the same job is built, but for its identity. -/
theorem tick?_anonymous (hclock : s'.supply.clock = s.supply.clock) :
    (t.tick? s').map (fun j => (Row.ofJob j).anonymous) =
      (t.tick? s).map fun j => (Row.ofJob j).anonymous := by
  cases hp : t.periodic with
  | none => rw [tick?, tick?, hp, Option.bind_none, Option.bind_none]
  | some p =>
      rw [tick?_of_periodic hp, tick?_of_periodic hp, hclock, Queue.build, Queue.build]
      by_cases hname : t.name.isEmpty
      · rw [if_pos hname, if_pos hname]
      · rw [if_neg hname, if_neg hname]
        cases s.supply.clock.after? p.blueprint.delay with
        | none => rfl
        | some available =>
            simp only [Except.toOption, Option.map_some, Row.anonymous, Row.ofJob, Job.new]

theorem dueRow?_of_any (h : s.store.rows.any (·.holdsOff t s.supply.clock)) :
    t.dueRow? s = none := by
  rw [dueRow?, due?, if_pos h, Option.map_none]

theorem dueRow?_of_tick? (hclock : s'.supply.clock = s.supply.clock) (h : t.tick? s = none) :
    t.dueRow? s' = none := by
  have hnone := tick?_anonymous (t := t) hclock
  rw [h, Option.map_none, Option.map_eq_none_iff] at hnone
  rw [dueRow?, due?, hnone, ite_self, Option.map_none]

theorem tick?_of_due? {j : Job} (h : t.due? s = some j) : t.tick? s = some j := by
  rw [due?] at h
  split at h
  · cases h
  · exact h

/-- What is due depends on the instant, and on which rows keep jobs away. -/
theorem dueRow?_congr (hclock : s'.supply.clock = s.supply.clock)
    (hany : s'.store.rows.any (·.holdsOff t s.supply.clock) =
      s.store.rows.any (·.holdsOff t s.supply.clock)) : t.dueRow? s' = t.dueRow? s := by
  rw [dueRow?, dueRow?, due?, due?, hclock, hany]
  split
  · rfl
  · exact tick?_anonymous hclock

end Task

namespace Row

variable {r r' : Row} {t : Task} {clock now : Instant}

/-- What keeps a job away has its name. -/
theorem name_of_holdsOff (h : r.holdsOff t clock) : r.name = .text t.name := by
  rw [holdsOff] at h
  split at h
  · cases h
  · rw [isPending, Bool.and_eq_true, Bool.and_eq_true, is_iff] at h
    exact h.1.1

/-- Whether a row keeps a job away depends on its name, its label and its end. -/
theorem holdsOff_congr (hname : r'.name = r.name) (hlabel : r'.label = r.label)
    (hfinished : r'.finished = r.finished) (t : Task) (clock : Instant) :
    r'.holdsOff t clock = r.holdsOff t clock := by
  rw [holdsOff, holdsOff]
  split
  · rfl
  · rw [isPending, isPending, hname, hlabel, hfinished]

theorem holdsOff_anonymous (h : r'.anonymous = r.anonymous) (t : Task) (clock : Instant) :
    r'.holdsOff t clock = r.holdsOff t clock := by
  change r'.anonymous.holdsOff t clock = r.anonymous.holdsOff t clock
  rw [h]

/-- The periodic job of a task keeps other ones away. -/
theorem holdsOff_ofJob {s : Session} {j : Job} (h : t.tick? s = some j) :
    (ofJob j).holdsOff t clock = true := by
  obtain ⟨p, available, hp, rfl⟩ := Task.tick?_eq_some h
  rw [holdsOff, hp]
  simp [isPending, ofJob, Job.new, ofInstant?, Column.ofOption, Column.is, Column.isNull]

theorem holdsOff_of_tick? {s : Session} {j : Job} (h : t.tick? s = some j) {p : Periodic}
    (hp : t.periodic = some p) (r : Row) :
    r.holdsOff t s.supply.clock =
      r.isPending j.name j.label (Stamp.ofInstant (j.created.before p.every)) := by
  obtain ⟨q, available, hq, rfl⟩ := Task.tick?_eq_some h
  obtain rfl : p = q := Option.some.inj (hp.symm.trans hq)
  rw [holdsOff, hp]
  rfl

/-- A row whose claim is taken back is of the same job, which is not done. -/
theorem getD_requeued (r : Row) (now : Instant) :
    ((r.requeued now).getD r).id = r.id ∧ ((r.requeued now).getD r).name = r.name ∧
      ((r.requeued now).getD r).label = r.label ∧
      ((r.requeued now).getD r).finished = r.finished := by
  cases h : r.requeued now with
  | none => exact ⟨rfl, rfl, rfl, rfl⟩
  | some r' =>
      obtain ⟨events, -, rfl⟩ := requeued_eq_some h
      exact ⟨rfl, rfl, rfl, rfl⟩

theorem id_reaped (tasks : List Task) (r : Row) : (r.reaped tasks now).id = r.id := by
  rw [reaped]
  split
  · exact (getD_requeued r now).1
  · rfl

theorem holdsOff_reaped (tasks : List Task) (r : Row) :
    (r.reaped tasks now).holdsOff t clock = r.holdsOff t clock := by
  rw [reaped]
  split
  · obtain ⟨-, hname, hlabel, hfinished⟩ := getD_requeued r now
    exact holdsOff_congr hname hlabel hfinished t clock
  · rfl

/-- Claims that are taken back keep jobs away as before. -/
theorem any_holdsOff_reaped (tasks : List Task) (rows : List Row) (t : Task) (now clock : Instant) :
    (rows.map (reaped tasks now)).any (·.holdsOff t clock) = rows.any (·.holdsOff t clock) := by
  rw [List.any_map]
  exact congrArg rows.any (funext (holdsOff_reaped tasks))

/-- No claim is taken back a second time. -/
theorem isStaleFor_reaped (hr : r.Audited) (now : Instant) {tasks : List Task} (ht : t ∈ tasks) :
    (r.reaped tasks now).isStaleFor now t = false := by
  by_cases hany : tasks.any (r.isStaleFor now)
  · obtain ⟨es, hevents, -⟩ := hr
    rw [reaped, if_pos hany, requeued_text hevents, Option.getD_some]
    exact isStaleFor_of_enqueued rfl now t
  · rw [reaped_of_not_any (Bool.eq_false_iff.mpr hany)]
    exact Bool.eq_false_iff.mpr fun hstale => hany (List.any_eq_true.mpr ⟨t, ht, hstale⟩)

end Row

/-- Neither claims that are taken back nor jobs of other names change what is due. -/
theorem Task.dueRow?_of_passed {s s' : Session} {tasks : List Task} {now : Instant}
    {due : List Row} {new : List Job} (h : s.Passed (Row.reaped tasks now) due new s') {t : Task}
    (hother : ∀ j ∈ new, j.name ≠ t.name) : t.dueRow? s' = t.dueRow? s := by
  have hnone : (new.map Row.ofJob).any (·.holdsOff t s.supply.clock) = false := by
    rw [List.any_map, List.any_eq_false]
    exact fun j hj hoff => hother j hj (Column.text.inj (Row.name_of_holdsOff hoff))
  refine dueRow?_congr h.clock ?_
  rw [h.store, List.any_append, Row.any_holdsOff_reaped, hnone, Bool.or_false]

/-! ## Passes -/

/-- While the clock stands still, a job is drafted at its instant. -/
theorem Queue.draft_of_steady {s : Session} (hs : s.Steady) (name : String) (b : Blueprint) :
    draft name b s =
      match build (.numbered s.supply.drawn) s.supply.clock name b with
      | .error e => (.error e, s)
      | .ok j => (.ok j, s.freshId.2) := by
  rw [draft, hs.now_eq]
  rfl

/-- Over a link that refuses no insertion, a job is inserted if nothing keeps it away. -/
theorem Session.Steady.insertIfAbsent {s : Session} (hs : s.Steady)
    (hjobs : s.store.schema.hasJobs) {j : Job} {t : Instant}
    (hid : s.store.Free j.name j.label (Stamp.ofInstant t) → s.store.hasId j.id.text = false) :
    (s.link.insertIfAbsent j t).2 =
      ⟨s.store.adding
        (if s.store.rows.any (·.isPending j.name j.label (Stamp.ofInstant t)) then [] else [j]),
        s.link.refusals⟩ := by
  rw [Link.insertIfAbsent, hs.insert]
  change Link.mk (s.store.insertIfAbsent j t).2 s.link.refusals = _
  by_cases hfree : s.store.Free j.name j.label (Stamp.ofInstant t)
  · rw [Store.insertIfAbsent_of_free hjobs (hid hfree) hfree, Store.any_isPending_iff.mpr hfree]
    rfl
  · rw [Store.insertIfAbsent_of_not_free hjobs hfree,
      if_pos (Bool.not_eq_false _ ▸ mt Store.any_isPending_iff.mp hfree), Store.adding_nil]

namespace Sweep

variable {s : Session} {t : Task}

/-- Nothing is inserted if no job can be built. -/
theorem schedule_of_tick? (hs : s.Steady) (h : t.tick? s = none) : schedule t s = s := by
  cases hp : t.periodic with
  | none => exact schedule_of_none hp s
  | some p =>
      have hdraft := Queue.draft_of_steady hs t.name p.blueprint
      rw [Task.tick?_of_periodic hp] at h
      cases hbuild : Queue.build (.numbered s.supply.drawn) s.supply.clock t.name p.blueprint with
      | error e =>
          rw [hbuild] at hdraft
          exact schedule_of_error hp hdraft
      | ok j =>
          rw [hbuild] at h
          cases h

/-- While the clock stands still, a pass inserts the periodic job of its task exactly if it is
due. -/
theorem schedule_of_steady (hs : s.Steady) (hjobs : s.store.schema.hasJobs)
    (hid : ∀ j, t.due? s = some j → s.store.hasId j.id.text = false) :
    schedule t s =
      ⟨⟨s.store.adding (t.due? s).toList, s.link.refusals⟩,
        { s.supply with drawn := s.supply.drawn + (t.tick? s).toList.length }⟩ := by
  cases htick : t.tick? s with
  | none =>
      rw [schedule_of_tick? hs htick, Task.due?, htick, ite_self, Option.toList_none,
        Store.adding_nil]
      rfl
  | some j =>
      obtain ⟨p, -, hp, -⟩ := Task.tick?_eq_some htick
      have hdraft : Queue.draft t.name p.blueprint s = (.ok j, s.freshId.2) := by
        have hbuild := htick
        rw [Task.tick?_of_periodic hp] at hbuild
        rw [Queue.draft_of_steady hs]
        cases hj : Queue.build (.numbered s.supply.drawn) s.supply.clock t.name p.blueprint with
        | error e =>
            rw [hj] at hbuild
            cases hbuild
        | ok i =>
            rw [hj] at hbuild
            cases hbuild
            rfl
      have hany : s.store.rows.any (·.isPending j.name j.label
          (Stamp.ofInstant (j.created.before p.every))) =
            s.store.rows.any (·.holdsOff t s.supply.clock) := by
        simp only [Row.holdsOff_of_tick? htick hp]
      have hdue : t.due? s =
          if s.store.rows.any (·.holdsOff t s.supply.clock) then none else some j := by
        rw [Task.due?, htick]
      have hlink : (s.link.insertIfAbsent j (j.created.before p.every)).2 = _ :=
        hs.insertIfAbsent hjobs fun hfree => hid j <| by
          rw [hdue, ← hany, Store.any_isPending_iff.mpr hfree, if_neg (by decide)]
      rw [schedule_of_ok hp hdraft, hdue]
      change Session.mk (s.link.insertIfAbsent j _).2 _ = _
      rw [hlink, hany]
      cases s.store.rows.any (·.holdsOff t s.supply.clock) <;> rfl

/-- While the clock stands still, a pass takes back the claims of its task that are stale, and
adds the row of its periodic job if that is due. -/
theorem pass_eq (h : s.store.Reached) (hs : s.Steady) (t : Task) (now : Instant)
    (hid : ∀ j, t.due? s = some j → ∀ r ∈ s.store.rows, r.id ≠ .text j.id.text) :
    schedule t (recover t now s) =
      ⟨⟨⟨s.store.schema,
            s.store.rows.map (Row.reaped [t] now) ++ (t.due? s).toList.map Row.ofJob⟩,
          s.link.refusals⟩,
        { s.supply with drawn := s.supply.drawn + (t.tick? s).toList.length }⟩ := by
  rw [recover_of_reached h hs.requeue]
  generalize hrecovered :
    s.withStore { s.store with rows := s.store.rows.map (Row.reaped [t] now) } = s₁
  have hdue : t.due? s₁ = t.due? s := by
    rw [← hrecovered, Task.due?, Task.due?]
    exact congrArg (if · = true then none else t.tick? s)
      (Row.any_holdsOff_reaped [t] s.store.rows t now s.supply.clock)
  have hsteady : s₁.Steady := hrecovered ▸ { hs with }
  have hjobs : s₁.store.schema.hasJobs := hrecovered ▸ h.hasJobs
  rw [schedule_of_steady hsteady hjobs fun j hj => ?_, hdue, ← hrecovered]
  · rfl
  · rw [Store.hasId, List.any_eq_false, ← hrecovered]
    intro r' hr' his
    obtain ⟨r, hr, rfl⟩ := List.mem_map.mp hr'
    rw [is_iff, Row.id_reaped] at his
    exact hid j (hdue ▸ hj) r hr his

/-- A pass over one task, where the identity that it may draw is fresh. -/
theorem pass_of_steady (h : s.store.Reached) (hs : s.Steady) {n : Nat} (hfresh : s.HasFresh (n + 1))
    (t : Task) (now : Instant) : ∃ new : List Job,
      s.Passed (Row.reaped [t] now) (t.dueRow? s).toList new (schedule t (recover t now s)) ∧
        (∀ j ∈ new, j.name = t.name) ∧ (schedule t (recover t now s)).HasFresh n := by
  have hnew {j : Job} (hj : t.due? s = some j) :
      j.IsNew ∧ j.name = t.name ∧ j.id = .numbered s.supply.drawn := by
    obtain ⟨p, available, -, rfl⟩ := Task.tick?_eq_some (Task.tick?_of_due? hj)
    exact ⟨rfl, rfl, rfl⟩
  rw [pass_eq h hs t now fun j hj => (hnew hj).2.2 ▸ hfresh.absent 0 (Nat.succ_pos n)]
  refine ⟨(t.due? s).toList, ?_, fun j hj => (hnew (Option.mem_toList.mp hj)).2.1, ?_⟩
  · exact
      { isNew := fun j hj => (hnew (Option.mem_toList.mp hj)).1
        due := by rw [Task.dueRow?, Option.toList_map]
        store := rfl
        steady := { hs with }
        clock := rfl }
  · refine hfresh.drawn (k := (t.tick? s).toList.length) Option.length_toList_le rfl
      fun r' hr' => ?_
    rcases List.mem_append.mp hr' with hr' | hr'
    · obtain ⟨r, hr, rfl⟩ := List.mem_map.mp hr'
      exact .inl ⟨r, hr, Row.id_reaped [t] r⟩
    · obtain ⟨j, hj, rfl⟩ := List.mem_map.mp hr'
      have hdue := Option.mem_toList.mp hj
      obtain ⟨-, -, hid⟩ := hnew hdue
      refine .inr ⟨by rw [Task.tick?_of_due? hdue]; rfl, ?_⟩
      rw [← hid]
      rfl

/-! ## Sweeps -/

/-- While the clock stands still, a sweep takes back the claims that are stale and adds the rows
of the periodic jobs that are due. -/
theorem sweep_of_steady (h : s.store.Reached) (hs : s.Steady) {tasks : List Task}
    (hnames : (tasks.map Task.name).Nodup) (hfresh : s.HasFresh tasks.length) (now : Instant) :
    ∃ new, s.Passed (Row.reaped tasks now) (tasks.filterMap (·.dueRow? s)) new
      (sweep tasks now s) := by
  induction tasks generalizing s with
  | nil =>
      refine ⟨[], fun _ h => absurd h List.not_mem_nil, rfl, ?_, hs, rfl⟩
      rw [Row.map_reaped_nil, List.map_nil, List.append_nil]
      rfl
  | cons t tasks ih =>
      obtain ⟨new, hpass, hname, hrest⟩ := pass_of_steady h hs hfresh t now
      rw [List.map_cons, List.nodup_cons] at hnames
      obtain ⟨more, hmore⟩ := ih (reached_pass h t now) hpass.steady hnames.2 hrest
      refine ⟨new ++ more, ?_, ?_, ?_, hmore.steady, hmore.clock.trans hpass.clock⟩
      · exact fun j hj => (List.mem_append.mp hj).elim (hpass.isNew j) (hmore.isNew j)
      · have hother : ∀ u ∈ tasks, u.dueRow? (schedule t (recover t now s)) = u.dueRow? s :=
          fun u hu => Task.dueRow?_of_passed hpass fun j hj heq => by
            rw [hname j hj] at heq
            exact hnames.1 (heq ▸ List.mem_map_of_mem hu)
        rw [List.map_append, hpass.due, hmore.due, List.filterMap_congr hother, List.filterMap_cons]
        cases t.dueRow? s <;> rfl
      · rw [sweep_cons, hmore.store, hpass.store,
          Row.map_reaped_cons t tasks now s.store.rows hpass.isNew, List.map_append,
          List.append_assoc]

end Sweep

/-! ## Nothing left to do -/

/-- No claim is stale for one of some tasks, and no periodic job of theirs is due. -/
def Session.Settled (s : Session) (tasks : List Task) (now : Instant) : Prop :=
  ∀ t ∈ tasks, (∀ r ∈ s.store.rows, r.isStaleFor now t = false) ∧ t.dueRow? s = none

namespace Sweep

variable {s : Session} {tasks : List Task} {now : Instant}

/-- A sweep leaves a store as it is if there is nothing to do. -/
theorem sweep_of_settled (h : s.store.Reached) (hs : s.Steady) (hsettled : s.Settled tasks now) :
    (sweep tasks now s).store = s.store := by
  induction tasks generalizing s with
  | nil => rfl
  | cons t tasks ih =>
      obtain ⟨hstale, hdue⟩ := hsettled t List.mem_cons_self
      have hnone : t.due? s = none := Option.map_eq_none_iff.mp hdue
      have hrows : s.store.rows.map (Row.reaped [t] now) = s.store.rows := by
        refine (List.map_congr_left fun r hr => Row.reaped_of_not_any ?_).trans (List.map_id _)
        rw [List.any_cons, hstale r hr]
        rfl
      have hpass := pass_eq h hs t now fun j hj => by
        rw [hnone] at hj
        cases hj
      rw [hnone, hrows, Option.toList_none, List.map_nil, List.append_nil] at hpass
      rw [sweep_cons, hpass]
      -- the pass may have drawn an identity
      refine ih h { hs with } fun u hu => ?_
      obtain ⟨hstale', hdue'⟩ := hsettled u (List.mem_cons_of_mem t hu)
      exact ⟨hstale', Eq.trans (b := u.dueRow? s) (Task.dueRow?_congr rfl rfl) hdue'⟩

/-- After a sweep there is nothing to do. -/
theorem settled_of_passed {new : List Job} {s' : Session} (h : s.store.Reached)
    (hpassed : s.Passed (Row.reaped tasks now) (tasks.filterMap (·.dueRow? s)) new s') :
    s'.Settled tasks now := by
  intro t ht
  constructor
  · intro r' hr'
    rw [hpassed.store] at hr'
    rcases List.mem_append.mp hr' with hr' | hr'
    · obtain ⟨r, hr, rfl⟩ := List.mem_map.mp hr'
      exact Row.isStaleFor_reaped (h.audited hr) now ht
    · obtain ⟨j, hj, rfl⟩ := List.mem_map.mp hr'
      exact Row.isStaleFor_of_enqueued (Row.status_ofJob (hpassed.isNew j hj)) now t
  · have hkept {r : Row} (hr : r ∈ s'.store.rows) (hoff : r.holdsOff t s.supply.clock) :
        t.dueRow? s' = none :=
      Task.dueRow?_of_any (hpassed.clock ▸ List.any_eq_true.mpr ⟨r, hr, hoff⟩)
    rw [hpassed.store] at hkept
    by_cases hany : s.store.rows.any (·.holdsOff t s.supply.clock)
    · obtain ⟨r, hr, hoff⟩ := List.any_eq_true.mp hany
      refine hkept (List.mem_append_left _ (List.mem_map_of_mem hr)) ?_
      rwa [Row.holdsOff_reaped]
    · have hdue : t.dueRow? s = (t.tick? s).map fun j => (Row.ofJob j).anonymous := by
        rw [Task.dueRow?, Task.due?, if_neg hany]
      cases htick : t.tick? s with
      | none => exact Task.dueRow?_of_tick? hpassed.clock htick
      | some j =>
          -- the job was due, so its row is one of the new ones
          rw [htick, Option.map_some] at hdue
          have hmem : (Row.ofJob j).anonymous ∈ new.map fun j => (Row.ofJob j).anonymous := by
            rw [hpassed.due]
            exact List.mem_filterMap.mpr ⟨t, ht, hdue⟩
          obtain ⟨i, hi, hsame⟩ := List.mem_map.mp hmem
          refine hkept (List.mem_append_right _ (List.mem_map_of_mem hi)) ?_
          rw [Row.holdsOff_anonymous hsame, Row.holdsOff_ofJob htick]

end Sweep

/-! ## Sweeps in any order -/

theorem Row.reaped_perm {tasks tasks' : List Task} (h : tasks.Perm tasks') (now : Instant) :
    Row.reaped tasks now = Row.reaped tasks' now := by
  funext r
  rw [reaped, reaped, h.any_eq]

theorem Session.HasFresh.perm {s : Session} {tasks tasks' : List Task} (h : tasks.Perm tasks')
    (hfresh : s.HasFresh tasks.length) : s.HasFresh tasks'.length := h.length_eq ▸ hfresh

/-- Whatever was called, and whatever the tasks are, two sweeps while the clock stands still leave
the table that one of them leaves, and the order of the tasks decides nothing but which identity
goes to which of the new jobs. -/
theorem sweeps_settle {cs : List Call} (hcs : AllNew cs) {s : Session}
    (hstore : s.store = Store.empty.after cs) (hs : s.Steady) {tasks : List Task}
    (hnames : (tasks.map Task.name).Nodup) (hfresh : s.HasFresh tasks.length) (now : Instant) :
    (Sweep.sweep tasks now (Sweep.sweep tasks now s)).store = (Sweep.sweep tasks now s).store ∧
      ∀ tasks', tasks.Perm tasks' → ∃ rows new new',
        (Sweep.sweep tasks now s).store.rows = rows ++ new ∧
          (Sweep.sweep tasks' now s).store.rows = rows ++ new' ∧
          rows.map Row.id = s.store.rows.map Row.id ∧
          (new.map Row.anonymous).Perm (new'.map Row.anonymous) := by
  have hreached : s.store.Reached := ⟨cs, hcs, hstore⟩
  obtain ⟨new, hpassed⟩ := Sweep.sweep_of_steady hreached hs hnames hfresh now
  refine ⟨?_, fun tasks' hperm => ?_⟩
  · have hafter : (Sweep.sweep tasks now s).store.Reached :=
      hreached.becomes (Sweep.sweep_becomes tasks now s) fun _ ⟨_, _, hc⟩ _ hj => hc.isNew hj
    exact Sweep.sweep_of_settled hafter hpassed.steady (Sweep.settled_of_passed hreached hpassed)
  · have hnames' : (tasks'.map Task.name).Nodup := (hperm.map Task.name).nodup_iff.mp hnames
    obtain ⟨new', hpassed'⟩ :=
      Sweep.sweep_of_steady hreached hs hnames' (hfresh.perm hperm) now
    refine ⟨s.store.rows.map (Row.reaped tasks now), new.map Row.ofJob, new'.map Row.ofJob,
      congrArg Store.rows hpassed.store, ?_, ?_, ?_⟩
    · rw [Row.reaped_perm hperm]
      exact congrArg Store.rows hpassed'.store
    · rw [List.map_map]
      exact List.map_congr_left fun r _ => Row.id_reaped tasks r
    · have hdue := hpassed.due
      have hdue' := hpassed'.due
      rw [List.map_map, List.map_map]
      exact hdue ▸ hdue' ▸ hperm.filterMap _

/-- A task with a periodic job. -/
def Task.ticking : Task :=
  { Task.new "tick" .unit .unit (.pure fun _ => .returned ()) with
    periodic := some ⟨.ofSecs 60, ⟨"periodic", .null, .zero⟩⟩ }

/-- For instance where one task has a claim that is overdue and another one a job that is due. -/
theorem sweeps_settle_overdue : Session.overdue.Steady ∧ Session.overdue.HasFresh 2 ∧
    (Sweep.sweep [.hourly, .ticking] .later
      (Sweep.sweep [.hourly, .ticking] .later .overdue)).store =
        (Sweep.sweep [.hourly, .ticking] .later .overdue).store ∧
      ∃ rows new new',
        (Sweep.sweep [.hourly, .ticking] .later .overdue).store.rows = rows ++ new ∧
          (Sweep.sweep [.ticking, .hourly] .later .overdue).store.rows = rows ++ new' ∧
          (new.map Row.anonymous).Perm (new'.map Row.anonymous) := by
  have hsteady : Session.overdue.Steady := ⟨fun _ => rfl, rfl, rfl⟩
  have hnames : ([Task.hourly, .ticking].map Task.name).Nodup := by decide
  have hdrawn : Session.overdue.supply.drawn = 1 := rfl
  have hfresh : Session.overdue.HasFresh 2 := by
    refine ⟨by decide, fun k hk r hr heq => ?_⟩
    rw [List.mem_singleton.mp hr] at heq
    have hid := JobId.text_inj.mp (Column.text.inj heq)
    have hzero := JobId.numbered_inj (by decide) (by omega) hid
    omega
  obtain ⟨htwice, horder⟩ := sweeps_settle allNew_overdue store_overdue hsteady hnames hfresh
    .later
  obtain ⟨rows, new, new', hrows, hrows', -, hperm⟩ := horder _ (List.Perm.swap _ _ [])
  exact ⟨hsteady, hfresh, htwice, rows, new, new', hrows, hrows', hperm⟩

end JobQueue
