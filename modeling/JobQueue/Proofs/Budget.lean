import JobQueue.Proofs.Fencing
import JobQueue.Proofs.Readable
import JobQueue.Proofs.Workers

/-!
# JobQueue.Proofs.Budget

How often a job is attempted again.

Every claim counts an attempt, whether or not anything is reported of it, so the attempts of
which an end is recorded may be far apart. But their numbers grow (`lt_of_ended_later`), and
another attempt is only due after one that is not the last that the job has. So there are
fewer of those than attempts, however claims are taken back, and reports are late, repeated
or missing (`within_budget`).
-/

namespace JobQueue

/-- What is reported of a job is decided with the number of attempts that the job has. -/
def Decided (m : UInt32) (id : JobId) (cs : List Call) : Prop :=
  ∀ n o now, Call.finish id n o now ∈ cs →
    ∃ result b present, Outcome.decide result n m b present = .ok o

/-- What the workers of a task report is decided with its attempts. -/
theorem decided_of_works {t : Task} {id : JobId} {cs : List Call}
    (h : ∀ n o now, Call.finish id n o now ∈ cs → t.Works (.finish id n o now)) :
    Decided t.maxAttempts id cs := by
  intro n o now hmem
  cases h n o now hmem with
  | @reports _ _ result _ _ decided => exact ⟨result, t.backoff, now, decided⟩

/-- The attempt of a job after which it is recorded that another one is due. -/
def Step.retried? (e : Step) (id : JobId) : Option UInt32 :=
  match e.call with
  | .finish _ n (.retry _ _) _ => if e.ends id n then some n else none
  | _ => none

/-- What holds of a history in which a job has so many attempts. -/
structure WithinBudget (m : UInt32) (id : JobId) (h : List Step) : Prop where
  /-- Another attempt is due only after one that is not the last. -/
  retried_lt : ∀ e ∈ h, ∀ n, e.retried? id = some n → n < m
  /-- So another attempt is due less often than there are attempts. -/
  retried_le : (h.filterMap (·.retried? id)).length ≤ m.toNat - 1
  /-- The job fails only with the end of its last attempt or of a later one. -/
  failed : ∀ e ∈ h, ∀ r, e.after.row? id = some r → r.hasStatus .failed → ¬ e.Spares id →
    ∃ n, m ≤ n ∧ e.ends id n
  /-- With the end of such an attempt the job is done. -/
  done : ∀ e ∈ h, ∀ n, e.ends id n → m ≤ n → ∃ r, e.after.row? id = some r ∧ r.isTerminal

/-! ## Steps -/

/-- Only a report makes a job failed. -/
theorem Change.eq_failed {c : Call} {r r' : Row} (h : Change c r r')
    (hfailed : r'.status = Row.ofStatus .failed) :
    ∃ id n error now, c = .finish id n (.failed error) now := by
  cases h with
  | claimed _ eq =>
      obtain ⟨events, -, rfl⟩ := Row.claimed_eq_some eq
      simp [Row.ofStatus_inj] at hfailed
  | @finished id n o now _ _ _ _ eq =>
      obtain ⟨events, -, rfl⟩ := Row.finishedWith_eq_some eq
      have hstatus := (r.withOutcome_status o now).symm.trans hfailed
      cases o with
      | failed error => exact ⟨id, n, error, now, rfl⟩
      | _ => simp [Outcome.status, Row.ofStatus_inj] at hstatus
  | requeued _ eq =>
      obtain ⟨events, -, rfl⟩ := Row.requeued_eq_some eq
      simp [Row.ofStatus_inj] at hfailed

namespace Step

variable {e : Step} {id : JobId} {n : UInt32}

theorem call_of_retried (h : e.retried? id = some n) :
    e.ends id n ∧ ∃ error available now, e.call = .finish id n (.retry error available) now := by
  obtain ⟨s, c⟩ := e
  cases c with
  | finish id' n' o now =>
      cases o with
      | retry error available =>
          simp only [retried?, Option.ite_none_right_eq_some, Option.some.injEq] at h
          obtain ⟨hends, rfl⟩ := h
          obtain ⟨o, stop, hcall⟩ := call_of_ends hends
          cases hcall
          exact ⟨hends, error, available, now, rfl⟩
      | _ => simp [retried?] at h
  | _ => simp [retried?] at h

theorem retried_of_finish {s : Store} {error : String} {available now : Instant}
    (h : (s.finish id n (.retry error available) now).1 = .ok true) :
    (Step.mk s (.finish id n (.retry error available) now)).retried? id = some n :=
  if_pos (ends_of_finish h)

end Step

/-! ## Histories -/

section

variable {cs : List Call} {pre post : List Step} {e : Step} {id : JobId} {n m : UInt32}

/-- The attempts of which an end is recorded come in their order. -/
theorem lt_of_ended_later (hn : (insertedIds cs).Nodup)
    (h : Store.empty.history cs = pre ++ e :: post) (he : e.ends id n) :
    ∀ x ∈ post, ∀ n', x.ends id n' → n < n' := by
  intro x hx n' hends
  obtain ⟨r, r', -, hheld, hr', hch⟩ := Step.row?_of_ends (keyed_of_history h) he
  by_contra hle
  have hle' : n'.toNat ≤ n.toNat := UInt32.le_iff_toNat_le.mp (UInt32.not_lt.mp hle)
  refine not_ended_later hn h hr' ?_ x hx hends
  rw [hch.age_eq, Row.age_of_isInAttempt hheld]
  omega

/-- An attempt of which an end is recorded is one that there was. -/
theorem pos_of_ends (hcs : AllNew cs) (he : e ∈ Store.empty.history cs) (hends : e.ends id n) :
    1 ≤ n.toNat := by
  have hk := keyed_of_mem_history he
  obtain ⟨r, -, hr, hheld, -, -⟩ := Step.row?_of_ends hk hends
  obtain ⟨pre, post, hsplit⟩ := List.append_of_mem he
  obtain ⟨cs₁, cs₂, rfl, -, hbefore, -⟩ := Store.calls_of_history hsplit
  have hmem := ((rowOf?_eq_some_iff hk).mp hr).1
  rw [hbefore] at hmem
  have hrecorded := (consistent_after (fun c hc => hcs c (List.mem_append_left _ hc)) hmem).1
  obtain ⟨hstatus, hattempts⟩ := Row.isInAttempt_iff.mp hheld
  have hpos := hrecorded.started_iff.mpr (hrecorded.dequeued (Row.hasStatus_iff.mpr hstatus)).1
  omega

/-- What is in order in every pair of an item and a later one is in order. -/
theorem pairwise_of_split {α : Type} {R : α → α → Prop} {l : List α}
    (h : ∀ pre a post, l = pre ++ a :: post → ∀ b ∈ post, R a b) : l.Pairwise R := by
  induction l with
  | nil => exact .nil
  | cons a l ih =>
      refine .cons (h [] a l rfl) (ih fun pre b post hl => ?_)
      exact h (a :: pre) b post (by rw [hl, List.cons_append])

theorem retried_pairwise (hn : (insertedIds cs).Nodup) (id : JobId) :
    ((Store.empty.history cs).filterMap (·.retried? id)).Pairwise (· < ·) := by
  refine List.pairwise_filterMap.mpr (pairwise_of_split fun pre e post h x hx n he n' hx' => ?_)
  exact lt_of_ended_later hn h (Step.call_of_retried he).1 x hx n' (Step.call_of_retried hx').1

/-- Growing numbers from one on, all below a bound, are fewer than the bound. -/
theorem length_le_of_pairwise_lt {l : List UInt32} (h : l.Pairwise (· < ·))
    (hl : ∀ n ∈ l, 1 ≤ n.toNat ∧ n < m) : l.length ≤ m.toNat - 1 := by
  have hnodup : (l.map UInt32.toNat).Nodup :=
    List.pairwise_map.mpr (h.imp fun hlt => Nat.ne_of_lt (UInt32.lt_iff_toNat_lt.mp hlt))
  have hsubset : l.map UInt32.toNat ⊆ List.range' 1 (m.toNat - 1) := by
    intro k hk
    obtain ⟨n, hn, rfl⟩ := List.mem_map.mp hk
    obtain ⟨hpos, hlt⟩ := hl n hn
    have hlt' := UInt32.lt_iff_toNat_lt.mp hlt
    rw [List.mem_range'_1]
    omega
  simpa using (List.subperm_of_subset hnodup hsubset).length_le

end

/-! ## Budgets -/

section

variable {cs : List Call} {id : JobId} {m : UInt32}

/-- What is reported in a history has been decided. -/
theorem Decided.of_mem (h : Decided m id cs) {e : Step} (he : e ∈ Store.empty.history cs)
    {n : UInt32} {o : Outcome} {now : Instant} (hcall : e.call = .finish id n o now) :
    ∃ result b present, Outcome.decide result n m b present = .ok o :=
  h n o now (hcall ▸ Store.call_mem_of_history he)

/-- A job that becomes failed has no attempt left. -/
theorem ends_of_failed (hcs : AllNew cs) (hd : Decided m id cs) {e : Step}
    (he : e ∈ Store.empty.history cs) {r' : Row} (hr' : e.after.row? id = some r')
    (hfailed : r'.hasStatus .failed) (hne : ¬ e.Spares id) : ∃ n, m ≤ n ∧ e.ends id n := by
  have hk := keyed_of_mem_history he
  have hfate := e.fate hk id
  rw [hr'] at hfate
  generalize ho : e.before.row? id = before at hfate
  have hstatus := Row.hasStatus_iff.mp hfailed
  cases hfate with
  | same => exact absurd (hr'.trans ho.symm) hne
  | @inserted j hj _ =>
      rw [hcs e.call (Store.call_mem_of_history he) j hj] at hstatus
      simp [Row.ofJob, Job.new, Row.ofStatus_inj] at hstatus
  | @changed r _ hch =>
      obtain ⟨own, n, error, now, hcall⟩ := hch.eq_failed hstatus
      obtain ⟨rfl, hends⟩ := Step.ends_of_change hk hcall ho hr' hch
      obtain ⟨result, b, present, hdecided⟩ := hd.of_mem he hcall
      exact ⟨n, Outcome.le_of_decide_failed hdecided, hends⟩

/-- The end of an attempt after which none is left ends the job. -/
theorem isTerminal_of_ends (hd : Decided m id cs) {e : Step} (he : e ∈ Store.empty.history cs)
    {n : UInt32} (hends : e.ends id n) (hle : m ≤ n) :
    ∃ r, e.after.row? id = some r ∧ r.isTerminal := by
  obtain ⟨r, r', -, -, hr', hch⟩ := Step.row?_of_ends (keyed_of_mem_history he) hends
  obtain ⟨o, now, hcall⟩ := Step.call_of_ends hends
  obtain ⟨result, b, present, hdecided⟩ := hd.of_mem he hcall
  rw [hcall] at hch
  exact ⟨r', hr', (Row.isTerminal_of_status hch.enters_of_finish.status).mpr
    (Outcome.isTerminal_of_decide hdecided hle)⟩

/-- Whatever is called in between, a job whose reports are decided with a number of attempts
is attempted again less often, fails only when none is left, and is done then. -/
theorem within_budget (hcs : AllNew cs) (hn : (insertedIds cs).Nodup) (hd : Decided m id cs) :
    WithinBudget m id (Store.empty.history cs) := by
  have hlt : ∀ e ∈ Store.empty.history cs, ∀ n, e.retried? id = some n → n < m := by
    intro e he n hretried
    obtain ⟨-, error, available, now, hcall⟩ := Step.call_of_retried hretried
    obtain ⟨result, b, present, hdecided⟩ := hd.of_mem he hcall
    exact (Outcome.of_decide_retry hdecided).1
  refine ⟨hlt, length_le_of_pairwise_lt (retried_pairwise hn id) fun n hmem => ?_,
    fun e he r' hr' hfailed hne => ends_of_failed hcs hd he hr' hfailed hne,
    fun e he n hends hle => isTerminal_of_ends hd he hends hle⟩
  obtain ⟨e, he, hretried⟩ := List.mem_filterMap.mp hmem
  exact ⟨pos_of_ends hcs he (Step.call_of_retried hretried).1, hlt e he n hretried⟩

end

/-! ## A sample -/

/-- A task whose handler always asks for another attempt, of which there are two. -/
def Task.busy : Task where
  name := "mail"
  execute _ _ store := { result := .error (.retry "busy"), store }
  checkPayload _ := .ok ()
  maxAttempts := 2

/-- A second after the epoch. -/
def Instant.second : Instant := ⟨1, 0, by decide⟩

/-- After the first attempt another one is due in a second. -/
theorem busy_retries :
    Outcome.decide (.error (.retry "busy")) 1 Task.busy.maxAttempts Task.busy.backoff .epoch =
      .ok (.retry "busy" .second) := by
  have hdelay : Task.busy.backoff.delay 1 = .ok (.ofSecs 1) := by decide +kernel
  have hlt : ¬ Task.busy.maxAttempts ≤ 1 := by decide
  rw [Outcome.decide, if_neg hlt, hdelay]
  rfl

/-- After the second attempt none is left. -/
theorem busy_fails {n : UInt32} (h : Task.busy.maxAttempts ≤ n) (now : Instant) :
    Outcome.decide (.error (.retry "busy")) n Task.busy.maxAttempts Task.busy.backoff now =
      .ok (.failed "busy") := by
  rw [Outcome.decide, if_pos h]

/-- Three claims of the sample. The first is reported, the second is taken back and reported
too late, and of the third the job fails. -/
def weary : List Call :=
  [.insert .sample, .claim "mail" .epoch, .finish Job.sample.id 1 (.retry "busy" .second) .epoch,
    .claim "mail" .second, .requeue "mail" .latest .second, .claim "mail" .second,
    .finish Job.sample.id 2 (.failed "busy") .second,
    .finish Job.sample.id 3 (.failed "busy") .second]

theorem weary_works {id : JobId} {n : UInt32} {o : Outcome} {now : Instant}
    (h : Call.finish id n o now ∈ weary) : Task.busy.Works (.finish id n o now) := by
  simp only [weary, List.mem_cons, List.not_mem_nil, or_false, Call.finish.injEq, reduceCtorEq,
    false_or] at h
  rcases h with ⟨rfl, rfl, rfl, rfl⟩ | ⟨rfl, rfl, rfl, rfl⟩ | ⟨rfl, rfl, rfl, rfl⟩
  · exact .reports busy_retries
  · exact .reports (busy_fails (by decide) _)
  · exact .reports (busy_fails (by decide) _)

/-- For instance of a job that is attempted again once, and fails. -/
theorem within_budget_weary :
    (∃ e ∈ Store.empty.history weary, e.retried? Job.sample.id = some 1) ∧
      WithinBudget Task.busy.maxAttempts Job.sample.id (Store.empty.history weary) := by
  have hafter : Store.empty.after [.insert .sample, .claim "mail" .epoch] = _ :=
    after_claim sample_isNew sample_available
  obtain ⟨r, hfinish, -⟩ := finish_alone .sample .epoch (.retry "busy" .second) .epoch
  rw [← hafter] at hfinish
  have hnew : AllNew weary := by simp [AllNew, weary, Call.job?, sample_isNew]
  refine ⟨⟨_, Store.mem_history _ [.insert .sample, .claim "mail" .epoch] _ _,
    Step.retried_of_finish (congrArg Prod.fst hfinish)⟩, ?_⟩
  exact within_budget hnew (by decide) (decided_of_works fun _ _ _ => weary_works)

end JobQueue
