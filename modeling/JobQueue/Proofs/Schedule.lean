import JobQueue.Proofs.History
import JobQueue.Proofs.Loading
import JobQueue.Proofs.Script
import JobQueue.Proofs.Tables
import Mathlib.Logic.Function.Basic

/-!
# JobQueue.Proofs.Schedule

How many workers there are, and who comes first, makes no difference to how a job ends.

- `Plan.Run` is any run of the calls of workers: each claims jobs, and reports what the
  handler made of a job whose claim it holds. `Run.tracked` says that in all of them the
  row of a job follows the script of its payload.
- So a job is claimed no more often than its script has attempts (`Run.countP_claims_le`),
  and two runs agree on every job that is done in both.
-/

namespace JobQueue

namespace Plan

/-- The job that a claim gives out, if it does. -/
def given : Except DatabaseError (Option Job) → List Job
  | .ok (some j) => [j]
  | _ => []

/-- Runs of `w` workers: the calls that have been made, and the jobs whose claims each
worker holds. Jobs are inserted at any time, and a worker may hold several claims. -/
inductive Run (p : Plan) (w : Nat) : List Call → (Fin w → List Job) → Prop where
  | start : Run p w [] fun _ => []
  | insert {cs : List Call} {held : Fin w → List Job} {j : Job} (run : Run p w cs held)
      (hj : j ∈ p.jobs) : Run p w (cs ++ [.insert j]) held
  | insertIfAbsent {cs : List Call} {held : Fin w → List Job} {j : Job} (finishedAfter : Instant)
      (run : Run p w cs held) (hj : j ∈ p.jobs) :
      Run p w (cs ++ [.insertIfAbsent j finishedAfter]) held
  | claim {cs : List Call} {held : Fin w → List Job} (k : Fin w) (name : String) (now : Instant)
      (run : Run p w cs held) :
      Run p w (cs ++ [.claim name now]) (Function.update held k
        (given ((Store.empty.after cs).claim name now).1 ++ held k))
  | report {cs : List Call} {held : Fin w → List Job} (k : Fin w) {j : Job}
      {before after : List Job} {now : Instant} {o : Outcome} (run : Run p w cs held)
      (hj : held k = before ++ j :: after)
      (ho : Outcome.decide (p.handle j.data j.attempts) j.attempts p.maxAttempts p.backoff now =
        .ok o) :
      Run p w (cs ++ [.finish j.id j.attempts o now]) (Function.update held k (before ++ after))

/-! ## Rows of a run -/

/-- What holds of the row of a job after some calls. -/
structure Tracks (p : Plan) (cs : List Call) (j : Job) (r : Row) : Prop where
  data : r.data = .text j.data.render
  follows : p.Follows j.data r
  claims : ((Store.empty.history cs).countP (·.claims j.id) : Int) = r.attempts

/-- The row of a job has been kept track of, or there was no claim of it. -/
def Tracked (p : Plan) (cs : List Call) (j : Job) : Prop :=
  match (Store.empty.after cs).row? j.id with
  | none => (Store.empty.history cs).countP (·.claims j.id) = 0
  | some r => p.Tracks cs j r

/-- What is held of a job is its payload. -/
def Held {w : Nat} (held : Fin w → List Job) (j : Job) : Prop :=
  ∀ k, ∀ x ∈ held k, x.id = j.id → x.data = j.data

variable {p : Plan} {w : Nat} {cs : List Call} {held : Fin w → List Job} {j : Job}

/-- A job is kept track of as long as nothing is removed and its row is changed as the
script wants. -/
theorem tracked_concat {c : Call} (hp : p.Valid) (hj : j ∈ p.jobs) (h : p.Tracked cs j)
    (hinsert : ∀ i, c.job? = some i → i ∈ p.jobs) (hremoves : ∀ r, c.removes r = false)
    (hfollows : ∀ r r', (Store.empty.after cs).row? j.id = some r → Change c r r' →
      p.Follows j.data r → p.Follows j.data r') :
    p.Tracked (cs ++ [c]) j := by
  have hfate : Fate c j.id ((Store.empty.after cs).row? j.id)
      ((Store.empty.after (cs ++ [c])).row? j.id) := by
    rw [Store.after_append]
    exact fate_next (keyed_after cs keyed_empty) c j.id
  have hcount := countP_claims_concat cs c j.id
  rw [Tracked] at h
  rw [Tracked]
  generalize hnew : (Store.empty.after (cs ++ [c])).row? j.id = new at hfate hcount
  generalize hold : (Store.empty.after cs).row? j.id = old at hfate hcount h hfollows
  -- the count of claims moves just when a claim changes the row
  cases hfate with
  | same =>
      simp only [bne_self_eq_false, Bool.and_false, Bool.false_eq_true, if_false] at hcount
      cases new with
      | none => exact hcount.trans h
      | some r => exact ⟨h.data, h.follows, by rw [hcount]; exact h.claims⟩
  | @inserted i hi hid =>
      have hsame : i = j := List.inj_on_of_nodup_map hp.nodup (hinsert i hi) hj hid
      rw [not_isClaim_of_job? hi] at hcount
      have hisNew := hp.isNew i (hinsert i hi)
      have hattempts : (Row.ofJob i).attempts = 0 := by
        rw [hisNew]
        rfl
      refine ⟨by rw [hsame]; rfl, follows_ofJob hp hisNew, ?_⟩
      rw [hcount, hattempts]
      simpa using h
  | @changed r r' hch =>
      refine ⟨hch.same.2.2.2.1.trans h.data, hfollows r r' rfl hch h.follows, ?_⟩
      have hne : (some r != some r') = true := by simp [hch.ne]
      rw [hne, Bool.and_true] at hcount
      rw [hcount, hch.attempts_eq, ← h.claims]
      split <;> simp
  | removed hrem =>
      rw [hremoves] at hrem
      exact absurd hrem (by decide)

/-! ## Runs -/

/-- What a claim gives out is read from the row of a job. -/
theorem data_of_given (hp : p.Valid) (hj : j ∈ p.jobs) (h : p.Tracked cs j) {name : String}
    {now : Instant} {x : Job} (hx : x ∈ given ((Store.empty.after cs).claim name now).1)
    (hid : x.id = j.id) : x.data = j.data := by
  cases hanswer : ((Store.empty.after cs).claim name now).1 with
  | error e =>
      rw [hanswer] at hx
      exact absurd hx List.not_mem_nil
  | ok answer =>
      cases answer with
      | none =>
          rw [hanswer] at hx
          exact absurd hx List.not_mem_nil
      | some y =>
          rw [hanswer, given, List.mem_singleton] at hx
          subst hx
          obtain ⟨r, r', hr, -, hch, hreads⟩ :=
            Store.row?_of_claim (keyed_after cs keyed_empty) hanswer
          rw [hid] at hr
          rw [Tracked, hr] at h
          exact hreads.data_eq (hch.same.2.2.2.1.trans h.data) (hp.readable j hj)

namespace Run

/-- In every run the row of a job follows its script, and what is held of it is its
payload. -/
theorem tracked (run : p.Run w cs held) (hp : p.Valid) (hj : j ∈ p.jobs) :
    p.Tracked cs j ∧ Held held j := by
  induction run with
  | start =>
      refine ⟨?_, fun _ _ hx => absurd hx List.not_mem_nil⟩
      rw [Tracked]
      rfl
  | insert run hi ih =>
      refine ⟨tracked_concat hp hj ih.1 (fun _ h => ?_) (fun _ => rfl) fun r r' _ hch => ?_, ih.2⟩
      · cases h
        exact hi
      · cases hch
  | insertIfAbsent t run hi ih =>
      refine ⟨tracked_concat hp hj ih.1 (fun _ h => ?_) (fun _ => rfl) fun r r' _ hch => ?_, ih.2⟩
      · cases h
        exact hi
      · cases hch
  | claim k name now run ih =>
      refine ⟨tracked_concat hp hj ih.1 (fun _ h => ?_) (fun _ => rfl) fun r r' _ hch hf => ?_, ?_⟩
      · cases h
      · cases hch with
        | claimed hopen eq => exact follows_claimed hf hopen eq
      · intro k' x hx hid
        by_cases hk : k' = k
        · rw [hk, Function.update_self] at hx
          rcases List.mem_append.mp hx with hx | hx
          · exact data_of_given hp hj ih.1 hx hid
          · exact ih.2 k x hx hid
        · rw [Function.update_of_ne hk] at hx
          exact ih.2 k' x hx hid
  | @report cs held k x before after now o run hheld ho ih =>
      have hmem : ∀ y ∈ before ++ x :: after, y ∈ held k := fun y hy => hheld ▸ hy
      refine ⟨tracked_concat hp hj ih.1 (fun _ h => ?_) (fun _ => rfl) fun r r' hr hch hf => ?_, ?_⟩
      · cases h
      · cases hch with
        | finished mine inAttempt eq =>
            have hrow := ((rowOf?_eq_some_iff (keyed_after cs keyed_empty)).mp hr).2
            have htext := Column.text.inj (hrow.symm.trans (is_iff.mp mine))
            have hdata := ih.2 k x (hmem x (by simp)) (JobId.text_inj.mp htext).symm
            rw [hdata] at ho
            exact follows_finished hf inAttempt ho eq
      · intro k' y hy hid
        by_cases hk : k' = k
        · rw [hk, Function.update_self] at hy
          refine ih.2 k y (hmem y ?_) hid
          rcases List.mem_append.mp hy with hy | hy
          · simp [hy]
          · simp [hy]
        · rw [Function.update_of_ne hk] at hy
          exact ih.2 k' y hy hid

/-- Workers insert the jobs of the plan only. -/
theorem allNew (run : p.Run w cs held) (hp : p.Valid) : AllNew cs := by
  induction run with
  | start => exact fun c hc => absurd hc List.not_mem_nil
  | insert run hi ih =>
      refine ih.concat fun i hjob => ?_
      cases hjob
      exact hp.isNew _ hi
  | insertIfAbsent t run hi ih =>
      refine ih.concat fun i hjob => ?_
      cases hjob
      exact hp.isNew _ hi
  | claim k name now run ih => exact ih.concat fun i hjob => nomatch hjob
  | report k run hheld ho ih => exact ih.concat fun i hjob => nomatch hjob

theorem recorded (run : p.Run w cs held) (hp : p.Valid) {r : Row}
    (hr : (Store.empty.after cs).row? j.id = some r) : r.Recorded :=
  recorded_after (run.allNew hp) keyed_empty (fun _ h => absurd h List.not_mem_nil) r
    ((rowOf?_eq_some_iff (keyed_after cs keyed_empty)).mp hr).1

/-- A job is claimed no more often than there are attempts. -/
theorem countP_claims_le (run : p.Run w cs held) (hp : p.Valid) (hj : j ∈ p.jobs) :
    (Store.empty.history cs).countP (·.claims j.id) ≤ p.lastAttempt j.data := by
  have htracked := (run.tracked hp hj).1
  rw [Tracked] at htracked
  split at htracked
  · rw [htracked]
    exact Nat.zero_le _
  · next r hr =>
      have hle := htracked.follows.attempts_le
      rw [← htracked.claims] at hle
      exact Int.ofNat_le.mp hle

/-- A job that is done shows how its last attempt ended. -/
theorem shows_of_isTerminal (run : p.Run w cs held) (hp : p.Valid) (hj : j ∈ p.jobs) {r : Row}
    (hr : (Store.empty.after cs).row? j.id = some r) (hdone : r.isTerminal) :
    r.attempts = p.lastAttempt j.data ∧
      r.Shows (p.handle j.data (.ofNat (p.lastAttempt j.data))) := by
  have htracked := (run.tracked hp hj).1
  rw [Tracked, hr] at htracked
  exact htracked.follows.done_of_isTerminal hdone

end Run

/-- However many workers there are and however their calls interleave, a job is claimed no
more often than its script has attempts, and once it is done it shows how the last of them
ends. So any two runs agree on what becomes of it. -/
theorem schedule_independent {p : Plan} (hp : p.Valid) {w w' : Nat} {cs cs' : List Call}
    {held : Fin w → List Job} {held' : Fin w' → List Job} (run : p.Run w cs held)
    (run' : p.Run w' cs' held') {j : Job} (hj : j ∈ p.jobs) :
    (Store.empty.history cs).countP (·.claims j.id) ≤ p.lastAttempt j.data ∧
      (∀ r, (Store.empty.after cs).row? j.id = some r → r.isTerminal →
        r.attempts = p.lastAttempt j.data ∧
          r.Shows (p.handle j.data (.ofNat (p.lastAttempt j.data)))) ∧
      ∀ r r', (Store.empty.after cs).row? j.id = some r →
        (Store.empty.after cs').row? j.id = some r' → r.isTerminal → r'.isTerminal →
          r.status = r'.status ∧ r.attempts = r'.attempts ∧ r.result = r'.result ∧
            r.reason = r'.reason := by
  refine ⟨run.countP_claims_le hp hj, fun r hr hdone => run.shows_of_isTerminal hp hj hr hdone,
    fun r r' hr hr' hdone hdone' => ?_⟩
  obtain ⟨hattempts, hshows⟩ := run.shows_of_isTerminal hp hj hr hdone
  obtain ⟨hattempts', hshows'⟩ := run'.shows_of_isTerminal hp hj hr' hdone'
  obtain ⟨hstatus, hresult, hreason⟩ :=
    Row.Shows.agree (run.recorded hp hr) (run'.recorded hp hr') hshows hshows'
  exact ⟨hstatus, hattempts.trans hattempts'.symm, hresult, hreason⟩

/-! ## A sample -/

/-- A run after which the table holds given jobs. -/
structure Leads (p : Plan) (w : Nat) (cs : List Call) (held : Fin w → List Job) (js : List Job) :
    Prop where
  run : p.Run w cs held
  after : Store.empty.after cs = .ofJobs js
  ids : (js.map Job.id).Nodup
  whole : ∀ j ∈ js, j.IsWhole

namespace Leads

variable (pre post : List Job) {rest : List Job}

theorem insert {js : List Job} (hjs : js ⊆ p.jobs) (hids : (js.map Job.id).Nodup)
    (hwhole : ∀ j ∈ js, j.IsWhole) : p.Leads w (js.map .insert) (fun _ => []) js where
  run := by
    clear hids hwhole
    induction js using List.reverseRecOn with
    | nil => exact .start
    | append_singleton js j ih =>
        rw [List.map_append]
        exact .insert (ih fun i hi => hjs (List.mem_append_left _ hi))
          (hjs (List.mem_append_right _ (List.mem_singleton_self j)))
  after := Store.after_insert_ofJobs hids
  ids := hids
  whole := hwhole

/-- A job is replaced by a change of it. -/
theorem replace {pre post : List Job} {i : Job} (hids : ((pre ++ j :: post).map Job.id).Nodup)
    (hwhole : ∀ x ∈ pre ++ j :: post, x.IsWhole) (hid : i.id = j.id) (hi : i.IsWhole) :
    ((pre ++ i :: post).map Job.id).Nodup ∧ ∀ x ∈ pre ++ i :: post, x.IsWhole := by
  rw [List.map_append, List.map_cons] at hids ⊢
  rw [hid]
  refine ⟨hids, fun x hx => ?_⟩
  rcases List.mem_append.mp hx with hx | hx
  · exact hwhole x (List.mem_append_left _ hx)
  · rcases List.mem_cons.mp hx with rfl | hx
    · exact hi
    · exact hwhole x (List.mem_append_right _ (List.mem_cons_of_mem _ hx))

/-- A worker claims the only job that is eligible. -/
theorem claim (h : p.Leads w cs held (pre ++ j :: post)) (k : Fin w) {now : Instant}
    (hnow : now.IsWhole) (hopen : j.isEligible now)
    (hothers : ∀ i ∈ pre ++ post, ¬ (i.name = j.name ∧ i.isEligible now))
    (hroom : j.attempts < 4294967295) :
    p.Leads w (cs ++ [.claim j.name now]) (Function.update held k (j.withClaim now :: held k))
      (pre ++ j.withClaim now :: post) := by
  have hj : j.IsWhole := h.whole j (by simp)
  have hclaim := Store.claim_ofJobs pre post h.ids hj hnow
    (Store.claimable_ofJobs pre post h.whole hnow ⟨rfl, hopen⟩ hothers) hroom
  obtain ⟨hids, hwhole⟩ := replace h.ids h.whole (i := j.withClaim now) rfl (hj.withClaim hnow)
  refine ⟨?_, ?_, hids, hwhole⟩
  · have hrun := h.run.claim k j.name now
    rwa [h.after, hclaim] at hrun
  · rw [Store.after_append, h.after, Store.after_cons, Store.after_nil, Call.next, hclaim]

/-- A worker reports of a job that it has claimed. -/
theorem report (h : p.Leads w cs held (pre ++ j :: post)) (k : Fin w) (now : Instant)
    (hheld : held k = j :: rest) (hdeq : j.status = .dequeued) {o : Outcome}
    (hdecide : Outcome.decide (p.handle j.data j.attempts) j.attempts p.maxAttempts p.backoff now =
      .ok o) (ho : o.IsWhole) (hnow : now.IsWhole) :
    p.Leads w (cs ++ [.finish j.id j.attempts o now]) (Function.update held k rest)
      (pre ++ j.withOutcome o now :: post) := by
  have hfinish := Store.finish_ofJobs pre post h.ids hdeq o now
  have hj : j.IsWhole := h.whole j (by simp)
  have hid : (j.withOutcome o now).id = j.id := by cases o <;> rfl
  obtain ⟨hids, hwhole⟩ := replace h.ids h.whole hid (hj.withOutcome ho hnow)
  have hheld : held k = [] ++ j :: rest := hheld
  refine ⟨h.run.report k hheld hdecide, ?_, hids, hwhole⟩
  rw [Store.after_append, h.after, Store.after_cons, Store.after_nil, Call.next, hfinish]

end Leads

/-- A mail with a payload, to be sent at some second. -/
def memo (n : Nat) (v : Json) (available : UInt8) : Job :=
  .new (.numbered n) "mail" "" v (.ofSecond 0) (.ofSecond available)

/-- Two mails, and a handler that sends the first of them at its second attempt and cancels the
other one. -/
def sample : Plan where
  jobs := [memo 1 .null 0, memo 2 (.bool true) 2]
  handle v n :=
    match v with
    | .null => if n = 1 then .error (.retry "busy") else .ok .null
    | _ => .error (.cancel "no such address")
  maxAttempts := 3
  backoff := .standard

/-- The first mail, to be sent again at some second. -/
def memoAgain (again ended : UInt8) : Job :=
  ((memo 1 .null 0).withClaim (.ofSecond 0)).withOutcome (.retry "busy" (.ofSecond again))
    (.ofSecond ended)

/-- The first mail once it is sent. -/
def memoSent (again ended : UInt8) : Job :=
  ((memoAgain again ended).withClaim (.ofSecond again)).withOutcome (.completed .null)
    (.ofSecond again)

/-- The second mail once it is cancelled. -/
def memoCancelled : Job :=
  ((memo 2 (.bool true) 2).withClaim (.ofSecond 2)).withOutcome (.cancelled "no such address")
    (.ofSecond 2)

/-- The calls of one worker. -/
def oneWorker : List Call :=
  [.insert (memo 1 .null 0), .insert (memo 2 (.bool true) 2), .claim "mail" (.ofSecond 0),
    .finish (.numbered 1) 1 (.retry "busy" (.ofSecond 1)) (.ofSecond 0),
    .claim "mail" (.ofSecond 1), .finish (.numbered 1) 2 (.completed .null) (.ofSecond 1),
    .claim "mail" (.ofSecond 2),
    .finish (.numbered 2) 1 (.cancelled "no such address") (.ofSecond 2)]

/-- The calls of two workers. While the first one has the first mail, the second one cancels the
other mail, and then makes the second attempt. -/
def twoWorkers : List Call :=
  [.insert (memo 2 (.bool true) 2), .insert (memo 1 .null 0), .claim "mail" (.ofSecond 0),
    .claim "mail" (.ofSecond 2),
    .finish (.numbered 2) 1 (.cancelled "no such address") (.ofSecond 2),
    .finish (.numbered 1) 1 (.retry "busy" (.ofSecond 4)) (.ofSecond 3),
    .claim "mail" (.ofSecond 4), .finish (.numbered 1) 2 (.completed .null) (.ofSecond 4)]

theorem memo_isWhole (n : Nat) {v : Json} (hv : v.IsKept) (available : UInt8) :
    (memo n v available).IsWhole :=
  Job.isWhole_new (by rfl) (by rfl) hv (Instant.isWhole_ofSecond 0)
    (Instant.isWhole_ofSecond available)

theorem sample_whole : ∀ j ∈ sample.jobs, j.IsWhole := by
  have htrue : (Json.bool true).IsKept := ⟨⟨by decide, trivial⟩, trivial⟩
  exact List.forall_mem_cons.mpr ⟨memo_isWhole 1 null_isKept 0, List.forall_mem_singleton.mpr
    (memo_isWhole 2 htrue 2)⟩

theorem sample_valid : sample.Valid where
  attempts_pos := by decide
  isNew := List.forall_mem_cons.mpr ⟨rfl, List.forall_mem_singleton.mpr rfl⟩
  nodup := by decide
  readable j hj := (sample_whole j hj).isKept.data.parse_render

/-- The handler asks for another attempt, which is due a second later. -/
theorem sample_retries {now later : UInt8}
    (h : (Instant.ofSecond now).after? (.ofSecs 1) = some (.ofSecond later)) :
    Outcome.decide (sample.handle .null 1) 1 sample.maxAttempts sample.backoff (.ofSecond now) =
      .ok (.retry "busy" (.ofSecond later)) := by
  have hresult : sample.handle .null 1 = .error (.retry "busy") := rfl
  have hdelay : sample.backoff.delay 1 = .ok (.ofSecs 1) := by decide +kernel
  have hlt : ¬ sample.maxAttempts ≤ 1 := by decide
  rw [hresult, Outcome.decide, if_neg hlt, hdelay, ok_bind, h]
  rfl

theorem leads_oneWorker :
    ∃ held, sample.Leads 1 oneWorker held [memoSent 1 0, memoCancelled] := by
  have h₀ : sample.Leads 1 _ _ sample.jobs := .insert (List.Subset.refl _) (by decide) sample_whole
  have h₁ := Leads.claim [] _ h₀ 0 (Instant.isWhole_ofSecond 0) (by decide) (by decide) (by decide)
  have h₂ := Leads.report [] _ h₁ 0 (.ofSecond 0) rfl rfl (sample_retries rfl)
    ⟨by rfl, Instant.isWhole_ofSecond 1⟩ (Instant.isWhole_ofSecond 0)
  have h₃ := Leads.claim [] _ h₂ 0 (Instant.isWhole_ofSecond 1) (by decide) (by decide) (by decide)
  have h₄ := Leads.report [] _ h₃ 0 (.ofSecond 1) rfl rfl rfl null_isKept
    (Instant.isWhole_ofSecond 1)
  have h₅ := Leads.claim [_] [] h₄ 0 (Instant.isWhole_ofSecond 2) (by decide) (by decide)
    (by decide)
  have h₆ := Leads.report [_] [] h₅ 0 (.ofSecond 2) rfl rfl rfl (by rfl)
    (Instant.isWhole_ofSecond 2)
  exact ⟨_, h₆⟩

theorem leads_twoWorkers :
    ∃ held, sample.Leads 2 twoWorkers held [memoCancelled, memoSent 4 3] := by
  have h₀ : sample.Leads 2 _ _ sample.jobs.reverse := .insert (by simp) (by decide)
    fun j hj => sample_whole j (List.mem_reverse.mp hj)
  have h₁ := Leads.claim [_] [] h₀ 0 (Instant.isWhole_ofSecond 0) (by decide) (by decide)
    (by decide)
  have h₂ := Leads.claim [] _ h₁ 1 (Instant.isWhole_ofSecond 2) (by decide) (by decide) (by decide)
  have h₃ := Leads.report [] _ h₂ 1 (.ofSecond 2) rfl rfl rfl (by rfl) (Instant.isWhole_ofSecond 2)
  have h₄ := Leads.report [_] [] h₃ 0 (.ofSecond 3) rfl rfl (sample_retries rfl)
    ⟨by rfl, Instant.isWhole_ofSecond 4⟩ (Instant.isWhole_ofSecond 3)
  have h₅ := Leads.claim [_] [] h₄ 1 (Instant.isWhole_ofSecond 4) (by decide) (by decide)
    (by decide)
  have h₆ := Leads.report [_] [] h₅ 1 (.ofSecond 4) rfl rfl rfl null_isKept
    (Instant.isWhole_ofSecond 4)
  exact ⟨_, h₆⟩

/-- For instance in a run of one worker and in one of two, in which the second attempt at the
first mail is made by another worker than the first one, after the other mail is cancelled. -/
theorem schedule_independent_sample : sample.Valid ∧
    (∃ held, sample.Run 1 oneWorker held) ∧ (∃ held, sample.Run 2 twoWorkers held) ∧
    ∀ j ∈ sample.jobs, ∃ r r', (Store.empty.after oneWorker).row? j.id = some r ∧
      (Store.empty.after twoWorkers).row? j.id = some r' ∧ r.isTerminal ∧ r'.isTerminal ∧
      r.status = r'.status ∧ r.attempts = r'.attempts ∧ r.result = r'.result ∧
      r.reason = r'.reason := by
  obtain ⟨held, hone⟩ := leads_oneWorker
  obtain ⟨held', htwo⟩ := leads_twoWorkers
  refine ⟨sample_valid, ⟨held, hone.run⟩, ⟨held', htwo.run⟩, fun j hj => ?_⟩
  obtain ⟨-, -, hagree⟩ := schedule_independent sample_valid hone.run htwo.run hj
  have hends : ∃ i ∈ [memoSent 1 0, memoCancelled], ∃ i' ∈ [memoCancelled, memoSent 4 3],
      i.id = j.id ∧ i'.id = j.id ∧ i.status.isTerminal ∧ i'.status.isTerminal := by
    rcases List.mem_pair.mp hj with rfl | rfl
    · exact ⟨memoSent 1 0, by simp, memoSent 4 3, by simp, rfl, rfl, rfl, rfl⟩
    · exact ⟨memoCancelled, by simp, memoCancelled, by simp, rfl, rfl, rfl, rfl⟩
  obtain ⟨i, hi, i', hi', hid, hid', hdone, hdone'⟩ := hends
  have hrow := Store.row?_ofJobs hone.ids hi
  have hrow' := Store.row?_ofJobs htwo.ids hi'
  rw [← hone.after, hid] at hrow
  rw [← htwo.after, hid'] at hrow'
  have hr : (Row.ofJob i).isTerminal := (Row.isTerminal_of_status rfl).mpr hdone
  have hr' : (Row.ofJob i').isTerminal := (Row.isTerminal_of_status rfl).mpr hdone'
  exact ⟨_, _, hrow, hrow', hr, hr', hagree _ _ hrow hrow' hr hr'⟩

end Plan

end JobQueue
