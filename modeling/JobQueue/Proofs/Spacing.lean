import JobQueue.Proofs.Conservation
import JobQueue.Proofs.Fencing
import JobQueue.Proofs.Pending
import JobQueue.Proofs.Windows

/-!
# JobQueue.Proofs.Spacing

The time between jobs of one name and label that are isolated from each other.

- The row of a job that is done stays as it is until it is removed
  (`row?_after_of_isTerminal`).
- As long as it is there, no job of its name and label is inserted whose isolation begins
  before it was done. So jobs are at least their isolation apart, if what is removed in
  between was done before it begins as well.
- Rows that are removed sooner keep no job away: where the retention is shorter than the
  isolation, the next job may come too early.
-/

namespace JobQueue

/-! ## Jobs that are done -/

/-- The row of a job that is done stays as it is, until a call removes it. -/
theorem row?_after_of_isTerminal {s : Store} (hk : Keyed s.rows) {id : JobId} {r : Row}
    (hr : s.row? id = some r) (hdone : r.isTerminal) (cs : List Call) :
    (s.after cs).row? id = some r ∨ ∃ c ∈ cs, c.removes r := by
  induction cs generalizing s with
  | nil => exact .inl hr
  | cons c cs ih =>
      have hfate := fate_next hk c id
      rw [hr] at hfate
      generalize hnext : (c.next s).row? id = o at hfate
      cases hfate with
      | same =>
          rcases ih (keyed_next hk) hnext with hkept | ⟨d, hd, hremoves⟩
          · exact .inl hkept
          · exact .inr ⟨d, List.mem_cons_of_mem _ hd, hremoves⟩
      | changed hch =>
          rw [hch.not_isTerminal] at hdone
          exact absurd hdone (by decide)
      | removed hremoves => exact .inr ⟨c, List.mem_cons_self, hremoves⟩

/-! ## Isolated jobs -/

/-- Calls that insert jobs of a name and label with an isolation only. -/
def IsolatedBy (p : Duration) (name label : String) (cs : List Call) : Prop :=
  ∀ c ∈ cs, ∀ j, c.job? = some j → j.name = name → j.label = label →
    c = .insertIfAbsent j (j.created.before p)

namespace Step

/-- A job of a name and label is done at an instant. -/
def Finishes (e : Step) (name label : String) (now : Instant) : Prop :=
  ∃ id n o, e.call = .finish id n o now ∧ o.isTerminal ∧ e.ends id n ∧
    ∃ r, e.before.row? id = some r ∧ r.isOf name label

/-- A job is inserted. -/
def Adds (e : Step) (j : Job) : Prop := e.call.job? = some j ∧ e.accepts j.id

variable {e : Step} {name label : String}

/-- The row of a job that is done tells when that was. -/
theorem row?_of_finishes (hk : Keyed e.before.rows) {now : Instant}
    (h : e.Finishes name label now) :
    ∃ id r, e.after.row? id = some r ∧ r.isTerminal ∧ r.name = .text name ∧
      r.label = .text label ∧ r.finished = Row.ofInstant now := by
  obtain ⟨id, n, o, hcall, hdone, hends, r, hr, hof⟩ := h
  obtain ⟨old, r', hold, -, hr', hch⟩ := row?_of_ends hk hends
  rw [hr, Option.some.injEq] at hold
  subst hold
  rw [hcall] at hch
  obtain ⟨-, hname, hlabel, -, -⟩ := hch.same
  rw [Row.isOf, Bool.and_eq_true, is_iff, is_iff] at hof
  have henters := hch.enters_of_finish
  refine ⟨id, r', hr', (Row.isTerminal_of_status henters.status).mpr hdone,
    hname.trans hof.1, hlabel.trans hof.2, ?_⟩
  rw [henters.finished]
  exact if_pos hdone

/-- A job that is inserted if absent finds none of its name and label that was done later. -/
theorem free_of_adds {j : Job} {t : Instant} (h : e.Adds j)
    (hcall : e.call = .insertIfAbsent j t) :
    e.before.Free j.name j.label (Stamp.ofInstant t) := by
  obtain ⟨-, haccepts⟩ := h
  rw [accepts, hcall] at haccepts
  simp only [beq_self_eq_true, Bool.true_and] at haccepts
  split at haccepts
  · next added hanswer =>
      subst haccepts
      exact Store.free_of_inserted hanswer
  · exact absurd haccepts (by decide)

end Step

/-! ## Retention -/

/-- A call that removes no row of a job that was done less than a length of time ago. -/
def Call.KeepsFor (c : Call) (p : Duration) (now : Instant) : Prop :=
  match c with
  | .delete _ => False
  | .deleteFinished cutoff =>
      ∃ t retention, cutoff = t.before retention ∧ t ≤ now ∧ t.isLeap = false ∧ p ≤ retention
  | _ => True

/-- What is removed nevertheless was done before that time began. -/
theorem Call.stamped_le_of_removes {c : Call} {p : Duration} {now f : Instant} {r : Row}
    (hkeeps : c.KeepsFor p now) (hnow : now.isLeap = false) (hr : r.finished = Row.ofInstant f)
    (h : c.removes r) : f.stamped ≤ (now.before p).stamped := by
  cases c with
  | delete id => exact hkeeps.elim
  | deleteFinished cutoff =>
      obtain ⟨t, retention, rfl, ht, htleap, hp⟩ := hkeeps
      rw [Call.removes, hr, Row.ofInstant, Column.before_text, decide_eq_true_eq,
        Stamp.ofInstant_lt_iff] at h
      have hmono := Instant.stamped_mono (Instant.before_mono htleap hnow ht hp)
        (Instant.before_cases htleap retention).1
      rw [Instant.le_iff] at hmono ⊢
      rw [Instant.lt_iff] at h
      omega
  | _ => exact absurd h (by simp [Call.removes])

/-! ## Spacing -/

/-- Where a job of a name and label is done and another one is inserted later, the creation
of the second one is at least the isolation later, as stamps keep the two, if nothing that
was done less than the isolation ago is removed in between. -/
theorem spaced {p : Duration} (hp : p.nanos % 1000 = 0) {name label : String} {cs : List Call}
    (hcs : IsolatedBy p name label cs) {pre mid post : List Step} {e g : Step}
    (h : Store.empty.history cs = pre ++ e :: (mid ++ g :: post)) {f : Instant}
    (he : e.Finishes name label f) {j : Job} (hg : g.Adds j) (hname : j.name = name)
    (hlabel : j.label = label) (hmid : ∀ x ∈ mid, x.call.KeepsFor p j.created)
    (hfirst : Instant.firstStamped < f.stamped) (hc : j.created.HasStamp)
    (hleap : j.created.isLeap = false) :
    ∃ t, f.stamped.after? p = some t ∧ t ≤ j.created.stamped := by
  refine Instant.exists_after?_le hp hc hleap hfirst ?_
  obtain ⟨id, r, hr, hdone, hrname, hrlabel, hfinished⟩ :=
    Step.row?_of_finishes (keyed_of_history h) he
  have hkeyed : Keyed e.after.rows := keyed_next (keyed_of_history h)
  obtain ⟨cs₁, cs₂, rfl, -, -, hlater⟩ := Store.calls_of_history h
  obtain ⟨ds₁, ds₂, rfl, rfl, hbefore, -⟩ := Store.calls_of_history hlater.symm
  rcases row?_after_of_isTerminal hkeyed hr hdone ds₁ with hkept | ⟨c, hcmem, hremoves⟩
  · -- the row is still there, and the job was inserted because it is old enough
    rw [← hbefore] at hkept
    have hmem := List.mem_of_find?_eq_some hkept
    have hcall : g.call = .insertIfAbsent j (j.created.before p) :=
      hcs g.call (by simp) j hg.1 hname hlabel
    obtain ⟨finished, htext, hle⟩ := Step.free_of_adds hg hcall r hmem
      (by rw [hrname, hname]) (by rw [hrlabel, hlabel])
    cases hfinished.symm.trans htext
    rw [← String.not_lt, Stamp.ofInstant_lt_iff, Instant.not_lt] at hle
    exact hle
  · -- the row was removed, because it was as old
    obtain ⟨x, hx, rfl⟩ := Store.call_mem_history e.after hcmem
    exact Call.stamped_le_of_removes (hmid x hx) hleap hfinished hremoves

/-! ## Samples -/

/-- Two hours after the instant from which seconds are counted. -/
def Instant.later : Instant := ⟨7200, 0, by decide⟩

/-- A periodic job. -/
def Job.tick : Job := .new (.numbered 0) "tick" "periodic" .null .epoch .epoch

/-- Another one of its name and label, two hours later. -/
def Job.tock : Job := .new (.numbered 1) "tick" "periodic" .null .later .later

/-- A periodic job is done at once and is removed an hour later, before the next one. -/
def cycle (p : Duration) : List Call :=
  [.insertIfAbsent .tick (Instant.epoch.before p), .claim "tick" .epoch,
    .finish Job.tick.id 1 (.completed .null) .epoch,
    .deleteFinished (Instant.later.before (.ofSecs 3600)),
    .insertIfAbsent .tock (Instant.later.before p)]

theorem isolatedBy_cycle (p : Duration) : IsolatedBy p "tick" "periodic" (cycle p) := by
  intro c hc j hj _ _
  simp only [cycle, List.mem_cons, List.not_mem_nil, or_false] at hc
  rcases hc with rfl | rfl | rfl | rfl | rfl <;> cases hj <;> rfl

/-- The next job is inserted whatever the isolation, for there is no trace of the first. -/
theorem history_cycle (p : Duration) : ∃ pre e x g,
    Store.empty.history (cycle p) = pre ++ e :: ([x] ++ g :: []) ∧
      e.Finishes "tick" "periodic" .epoch ∧
      x.call = .deleteFinished (Instant.later.before (.ofSecs 3600)) ∧ g.Adds .tock := by
  have hinsert : (Call.insertIfAbsent .tick (Instant.epoch.before p)).next .empty =
      ⟨.current, [Row.ofJob .tick]⟩ := after_insertIfAbsent _ _
  have hclaim : (Call.claim "tick" .epoch).next ⟨.current, [Row.ofJob .tick]⟩ =
      ⟨.current, [claimedRow .tick .epoch]⟩ := by
    have hanswer : (Store.mk .current [Row.ofJob .tick]).claim "tick" .epoch = _ :=
      claim_alone (j := .tick) rfl (upTo_ofInstant .epoch)
    rw [Call.next, hanswer]
  obtain ⟨r, hfinish, hch⟩ := finish_alone .tick .epoch (.completed .null) .epoch
  have hdone : (Call.finish Job.tick.id 1 (.completed .null) .epoch).next
      ⟨.current, [claimedRow .tick .epoch]⟩ = ⟨.current, [r]⟩ := by
    rw [Call.next, hfinish]
  have hsweep : (Call.deleteFinished (Instant.later.before (.ofSecs 3600))).next
      ⟨.current, [r]⟩ = .empty := by
    have hfinished : r.finished = Row.ofInstant .epoch := hch.enters_of_finish.finished
    have hlt : Stamp.ofInstant .epoch < Stamp.ofInstant (Instant.later.before (.ofSecs 3600)) :=
      Stamp.ofInstant_lt_iff.mpr (by decide)
    rw [Call.next, Store.deleteFinished, if_pos Schema.hasJobs_current]
    simp [hfinished, Row.ofInstant, hlt, Store.empty]
  have hnext := Store.insertIfAbsent_of_free (s := .empty) (j := .tock)
    (t := Instant.later.before p) Schema.hasJobs_current rfl fun _ h => absurd h List.not_mem_nil
  refine ⟨[_, _], _, _, _, rfl, ⟨_, _, _, rfl, rfl, ?_, claimedRow .tick .epoch, ?_, ?_⟩,
    rfl, rfl, ?_⟩
  · rw [hinsert, hclaim]
    exact Step.ends_of_finish (by rw [hfinish])
  · rw [hinsert, hclaim]
    simp [Store.row?, rowOf?, claimedRow, Row.ofJob, Column.is]
  · simp [Row.isOf, claimedRow, Row.ofJob, Job.tick, Job.new, Column.is]
  · rw [hinsert, hclaim, hdone, hsweep]
    simp [Step.accepts, hnext]

/-- For instance where the isolation is no longer than the retention. -/
theorem spaced_cycle : ∃ t, Instant.epoch.stamped.after? (.ofSecs 3600) = some t ∧
    t ≤ Job.tock.created.stamped := by
  obtain ⟨pre, e, x, g, hhistory, he, hx, hg⟩ := history_cycle (.ofSecs 3600)
  refine spaced (by decide) (isolatedBy_cycle _) hhistory he hg rfl rfl (fun y hy => ?_) (by decide)
    (Instant.hasStamp_iff.mpr (by decide)) rfl
  rw [List.mem_singleton.mp hy, hx]
  exact ⟨_, _, rfl, .inr ⟨rfl, Nat.le_refl _⟩, rfl, Nat.le_refl _⟩

/-- An isolation of a day and a retention of an hour let a job in two hours after another one
was done. -/
theorem cycle_too_early : ∃ pre e x g,
    Store.empty.history (cycle (.ofSecs 86400)) = pre ++ e :: ([x] ++ g :: []) ∧
      IsolatedBy (.ofSecs 86400) "tick" "periodic" (cycle (.ofSecs 86400)) ∧
      e.Finishes "tick" "periodic" .epoch ∧
      x.call = .deleteFinished (Instant.later.before (.ofSecs 3600)) ∧ g.Adds .tock ∧
      ¬ ∃ t, Instant.epoch.stamped.after? (.ofSecs 86400) = some t ∧
        t ≤ Job.tock.created.stamped := by
  obtain ⟨pre, e, x, g, hhistory, he, hx, hg⟩ := history_cycle (.ofSecs 86400)
  refine ⟨pre, e, x, g, hhistory, isolatedBy_cycle _, he, hx, hg, ?_⟩
  rintro ⟨t, ht, hle⟩
  have hday : Instant.epoch.stamped.after? (.ofSecs 86400) = some ⟨86400, 0, by decide⟩ := by decide
  rw [hday, Option.some.injEq] at ht
  rw [← ht] at hle
  exact absurd hle (by decide)

end JobQueue
