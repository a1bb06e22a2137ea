import JobQueue.Proofs.Handouts
import JobQueue.Proofs.Workers

/-!
# JobQueue.Proofs.Closing

A worker that claims a job ends the attempt in the same step, whatever its handler does.

- `Task.Ends` says which outcome follows from which behaviour of a payload and its handler. It
  always is one (`exists_ends`).
- `Row.Closed` says what becomes of a row that is claimed and then ends with an outcome
  (`closed_of_finished`).
- A step over a link that refuses nothing finds no row to claim and leaves the store as it is, or
  closes the row that a claim takes and leaves all others (`step_closes`).
-/

namespace JobQueue

/-! ## Behaviours -/

/-- The reason for another attempt that a handler gives. -/
def Verdict.retryReason {α : Type} : Verdict α → Option String
  | .failed (.retry reason) => some reason
  | .broke message => some (brokenReason message)
  | _ => none

/-- The outcome of an attempt that ends at an instant, by what its payload and its handler do.
The handler runs on a store at a present. -/
inductive Task.Ends (t : Task) {α β : Type} (payload : Format α) (result : Format β)
    (handler : Handler α β) (j : Job) (present : Instant) (s : Store) (ended : Instant) :
    Outcome → Prop where
  /-- The payload is not decoded. -/
  | undecoded {e : CodecError} (payload_error : payload.decode j.data = .error e) :
      t.Ends payload result handler j present s ended (.cancelled e.message)
  /-- The handler returns a value. -/
  | returned {model : α} {b : β} {v : Json} (decoded : payload.decode j.data = .ok model)
      (verdict : (handler (context model j present) present s).verdict = .returned b)
      (encoded : result.encode b = .ok v) :
      t.Ends payload result handler j present s ended (.completed v)
  /-- The handler returns a value that is not encoded. -/
  | unencoded {model : α} {b : β} {e : CodecError} (decoded : payload.decode j.data = .ok model)
      (verdict : (handler (context model j present) present s).verdict = .returned b)
      (result_error : result.encode b = .error e) :
      t.Ends payload result handler j present s ended (.cancelled e.message)
  /-- The handler gives up the job. -/
  | cancelled {model : α} {reason : String} (decoded : payload.decode j.data = .ok model)
      (verdict : (handler (context model j present) present s).verdict =
        .failed (.cancel reason)) :
      t.Ends payload result handler j present s ended (.cancelled reason)
  /-- The handler asks for another attempt or breaks off, and an attempt is left. -/
  | again {model : α} {reason : String} {d : Duration}
      (decoded : payload.decode j.data = .ok model)
      (verdict : (handler (context model j present) present s).verdict.retryReason = some reason)
      (left : j.attempts < t.maxAttempts) (delay : t.backoff.delay j.attempts = .ok d) :
      t.Ends payload result handler j present s ended
        (.retry reason ((ended.after? d).getD .latest))
  /-- The handler asks for another attempt or breaks off, and none is left. -/
  | exhausted {model : α} {reason : String} (decoded : payload.decode j.data = .ok model)
      (verdict : (handler (context model j present) present s).verdict.retryReason = some reason)
      (last : t.maxAttempts ≤ j.attempts) :
      t.Ends payload result handler j present s ended (.failed reason)

section

variable {α β : Type} {t : Task} {payload : Format α} {result : Format β}
  {handler : Handler α β} {j : Job} {present ended : Instant} {s : Store}

/-- Where there is a reason for another attempt, there is an outcome. -/
theorem exists_ends_of_retryReason {model : α} (hdecode : payload.decode j.data = .ok model)
    {reason : String}
    (hreason : (handler (Task.context model j present) present s).verdict.retryReason =
      some reason)
    (hdelay : j.attempts < t.maxAttempts → ∃ d, t.backoff.delay j.attempts = .ok d) :
    ∃ o, Outcome.decide (.error (.retry reason)) j.attempts t.maxAttempts t.backoff ended =
        .ok o ∧ t.Ends payload result handler j present s ended o := by
  by_cases hlast : t.maxAttempts ≤ j.attempts
  · exact ⟨.failed reason, if_pos hlast, .exhausted hdecode hreason hlast⟩
  · have hleft := UInt32.not_le.mp hlast
    obtain ⟨d, hd⟩ := hdelay hleft
    refine ⟨_, ?_, .again hdecode hreason hleft hd⟩
    rw [Outcome.decide, if_neg hlast, hd]
    rfl

variable (payload result handler present s ended) in
/-- Whatever the payload and the handler do, there is an outcome. -/
theorem exists_ends
    (hdelay : j.attempts < t.maxAttempts → ∃ d, t.backoff.delay j.attempts = .ok d) :
    ∃ o, Outcome.decide (Task.executeWith payload result handler j present s).result j.attempts
        t.maxAttempts t.backoff ended = .ok o ∧
      t.Ends payload result handler j present s ended o := by
  cases hdecode : payload.decode j.data with
  | error e =>
      refine ⟨_, ?_, .undecoded hdecode⟩
      simp only [Task.executeWith, hdecode]
      rfl
  | ok model =>
      have hresult : (Task.executeWith payload result handler j present s).result =
          (handler (Task.context model j present) present s).verdict.toResult result := by
        simp only [Task.executeWith, hdecode]
      rw [hresult]
      cases hverdict : (handler (Task.context model j present) present s).verdict with
      | returned b =>
          cases hencode : result.encode b with
          | error e =>
              refine ⟨_, ?_, .unencoded hdecode hverdict hencode⟩
              rw [Verdict.toResult, hencode]
              rfl
          | ok v =>
              refine ⟨_, ?_, .returned hdecode hverdict hencode⟩
              rw [Verdict.toResult, hencode]
              rfl
      | failed e =>
          cases e with
          | retry reason =>
              exact exists_ends_of_retryReason hdecode (by rw [hverdict]; rfl) hdelay
          | cancel reason => exact ⟨_, rfl, .cancelled hdecode hverdict⟩
      | broke message =>
          exact exists_ends_of_retryReason hdecode (by rw [hverdict]; rfl) hdelay

/-- A handler that leaves the store alone leaves it alone on documents. -/
theorem store_of_executeWith (hpure : ∀ ctx now s, (handler ctx now s).store = s) :
    (Task.executeWith payload result handler j present s).store = s := by
  cases hdecode : payload.decode j.data with
  | error e => simp only [Task.executeWith, hdecode]
  | ok model => simp only [Task.executeWith, hdecode, hpure]

end

/-! ## Rows -/

/-- A row tells an outcome in the columns that it has for it. -/
def Row.Tells (r r' : Row) (stop : Instant) : Outcome → Prop
  | .completed v =>
      r'.result = .text v.render ∧ r'.finished = ofInstant stop ∧ r'.available = r.available ∧
        r'.error = r.error ∧ r'.reason = r.reason
  | .retry error available =>
      r'.error = .text error ∧ r'.available = ofInstant available ∧ r'.finished = r.finished ∧
        r'.result = r.result ∧ r'.reason = r.reason
  | .failed error =>
      r'.error = .text error ∧ r'.finished = ofInstant stop ∧ r'.available = r.available ∧
        r'.result = r.result ∧ r'.reason = r.reason
  | .cancelled reason =>
      r'.reason = .text reason ∧ r'.finished = ofInstant stop ∧ r'.available = r.available ∧
        r'.result = r.result ∧ r'.error = r.error

/-- A row becomes one whose last attempt began at an instant and ended at another one with an
outcome. -/
structure Row.Closed (r r' : Row) (start : Instant) (o : Outcome) (stop : Instant) : Prop where
  same : r'.id = r.id ∧ r'.name = r.name ∧ r'.label = r.label ∧ r'.data = r.data ∧
    r'.created = r.created
  attempts : r'.attempts = r.attempts + 1
  started : r'.started = ofInstant start
  ended : r'.ended = ofInstant stop
  /-- The log has two more events. -/
  events : ∃ es, r.events = .text (Log.text es) ∧
    r'.events = .text (Log.text (es ++ [⟨start, .dequeued, ""⟩, o.event stop]))
  status : r'.status = ofStatus o.status
  not_dequeued : r'.hasStatus .dequeued = false
  tells : r.Tells r' stop o

namespace Row

theorem not_dequeued_of_outcome {r : Row} {o : Outcome} (h : r.status = ofStatus o.status) :
    r.hasStatus .dequeued = false := by
  rw [Bool.eq_false_iff, ne_eq, hasStatus_of_status h]
  cases o <;> exact nofun

/-- A row that is claimed, and then ends with an outcome, is closed. -/
theorem closed_of_finished {r r' r'' : Row} (hlog : r.Logged) {start : Instant}
    (hclaimed : r.claimed start = some r') {o : Outcome} {stop : Instant}
    (hfinished : r'.finishedWith o stop = some r'') : r.Closed r'' start o stop := by
  obtain ⟨es, hes⟩ := hlog.events
  rw [claimed_text hes, Option.some.injEq] at hclaimed
  subst hclaimed
  rw [finishedWith_text rfl, Option.some.injEq, List.append_assoc, List.singleton_append]
    at hfinished
  subst hfinished
  cases o <;> exact ⟨⟨rfl, rfl, rfl, rfl, rfl⟩, rfl, rfl, rfl, ⟨es, hes, rfl⟩, rfl,
    not_dequeued_of_outcome rfl, rfl, rfl, rfl, rfl, rfl⟩

end Row

/-! ## Links that refuse nothing -/

namespace Link

variable {l : Link}

theorem claim_of_reliable (h : l.refusals = {}) (name : String) (now : Instant) :
    l.claim name now =
      (some (l.store.claim name now).1, { l with store := (l.store.claim name now).2 }) := by
  simp only [claim, h, lift]

theorem finish_of_reliable (h : l.refusals = {}) (id : JobId) (n : UInt32) (o : Outcome)
    (now : Instant) :
    l.finish id n o now =
      ((l.store.finish id n o now).1, { l with store := (l.store.finish id n o now).2 }) := by
  simp only [finish, h, lift]

end Link

namespace Worker

variable {t : Task} {S : Session}

/-- The session after a claim that left a store. -/
def afterClaim (S : Session) (s : Store) : Session :=
  { S.now.2 with link := { S.now.2.link with store := s } }

/-- A worker that is given no job is idle. -/
theorem step_of_none (hlink : S.link.refusals = {}) (cancelled : Bool)
    (hclaim : S.store.claim t.name (S.supply.reading 0) = (.ok none, S.store)) :
    (step t cancelled S).1 = .idle ∧ (step t cancelled S).2.store = S.store := by
  have hanswer := Link.claim_of_reliable (l := S.now.2.link) hlink t.name S.now.1
  have hclaim : S.now.2.link.store.claim t.name S.now.1 = (.ok none, S.store) := hclaim
  rw [hclaim] at hanswer
  have htake : take t S = (.nothing, afterClaim S S.store) := by
    rw [take]
    simp only [hanswer]
    rfl
  rw [step, htake]
  exact ⟨rfl, rfl⟩

/-- A worker that is given a job runs it. -/
theorem take_of_some (hlink : S.link.refusals = {}) {j : Job} {s : Store}
    (hclaim : S.store.claim t.name (S.supply.reading 0) = (.ok (some j), s))
    (hstore : (t.execute j (S.supply.reading 1) s).store = s) :
    take t S = (.attempt ⟨j.id, j.attempts, (t.execute j (S.supply.reading 1) s).result,
      (t.execute j (S.supply.reading 1) s).slept⟩, (afterClaim S s).now.2) := by
  have hanswer := Link.claim_of_reliable (l := S.now.2.link) hlink t.name S.now.1
  have hclaim : S.now.2.link.store.claim t.name S.now.1 = (.ok (some j), s) := hclaim
  rw [hclaim] at hanswer
  have hwith : (afterClaim S s).now.2.withStore s = (afterClaim S s).now.2 := rfl
  rw [take]
  simp only [hanswer]
  exact congrArg (Prod.mk _) (by rw [← hwith]; exact congrArg _ hstore)

/-- An outcome that the store takes up is written once. -/
theorem record_of_tryRecord {a : Attempt} {o : Outcome} {ended : Instant} {S' : Session}
    (h : tryRecord a o ended S = (true, S')) (cancelled : Bool) (refusals waited : Nat) :
    record t a o ended cancelled refusals waited S = S' := by
  unfold record
  simp only [h]

/-- A worker that is given a job runs it and records its outcome. -/
theorem step_of_some (hlink : S.link.refusals = {}) (cancelled : Bool) {j : Job} {s s' : Store}
    (hclaim : S.store.claim t.name (S.supply.reading 0) = (.ok (some j), s))
    (hstore : (t.execute j (S.supply.reading 1) s).store = s) {o : Outcome}
    (ho : Outcome.decide (t.execute j (S.supply.reading 1) s).result j.attempts t.maxAttempts
      t.backoff (S.supply.reading 2) = .ok o)
    (hfinish : s.finish j.id j.attempts o (S.supply.reading 2) = (.ok true, s')) :
    (step t cancelled S).1 = .claimed ∧ (step t cancelled S).2.store = s' := by
  have htake := take_of_some hlink hclaim hstore
  obtain ⟨S', hS'⟩ : ∃ S', S' = (afterClaim S s).now.2.now.2 := ⟨_, rfl⟩
  have hlink' : S'.link.refusals = {} := hS' ▸ hlink
  have hfinish' : S'.link.store.finish j.id j.attempts o (S.supply.reading 2) = (.ok true, s') :=
    hS' ▸ hfinish
  have hnow : (afterClaim S s).now.2.now = (S.supply.reading 2, S') := by rw [hS']; rfl
  have hanswer := Link.finish_of_reliable hlink' j.id j.attempts o (S.supply.reading 2)
  rw [hfinish'] at hanswer
  have htry (a : Attempt) (hid : a.id = j.id) (hnumber : a.number = j.attempts) :
      tryRecord a o (S.supply.reading 2) S' =
        (true, { S' with link := { S'.link with store := s' } }) := by
    simp only [tryRecord, hid, hnumber, hanswer]
    rfl
  rw [step, htake]
  simp only [hnow, outcome, ho, true_and]
  rw [record_of_tryRecord (htry _ rfl rfl)]
  rfl

end Worker

/-! ## A sample -/

/-- A mail is sent at its second attempt. -/
def sender : Handler Unit Unit := .pure fun ctx =>
  if ctx.attempt = 1 then .failed (.retry "busy") else .returned ()

/-- A task that sends mails. -/
def Task.sample : Task := .new "mail" .unit .unit sender

/-- A job of another task. -/
def Job.bill : Job := .new (.numbered 0) "bill" "" .null (.ofSecond 0) (.ofSecond 0)

/-- A bill, and three mails of which two are due. -/
def mailbox : List Job := [.bill, .letter 1 0 30, .letter 2 0 5, .letter 3 0 10]

/-- A session with these jobs in its store. -/
def Session.sample : Session :=
  ⟨.reliable (Store.empty.after (mailbox.map .insert)), .still (.ofSecond 20)⟩

/-! ## Steps -/

/-- A claim puts the row that it takes into an attempt, and answers with its job. -/
theorem opened_of_ready {s : Store} (hk : Keyed s.rows) (hjobs : s.schema.hasJobs) {name : String}
    {now : Instant} {r : Row} (hr : s.claimable name now = some r) {i : Job}
    (hready : r.Ready i) :
    ∃ (pre post : List Row) (b : Row) (j : Job), s.rows = pre ++ r :: post ∧
      r.claimed now = some b ∧ b.Reads j ∧ b.Logged ∧ b.isInAttempt j.attempts ∧
      1 ≤ j.attempts ∧ Keyed (pre ++ b :: post) ∧
      s.claim name now = (.ok (some j), { s with rows := pre ++ b :: post }) := by
  obtain ⟨hmem, hopen⟩ := Store.mem_of_claimable hr
  obtain ⟨pre, post, hsplit⟩ := List.append_of_mem hmem
  obtain ⟨b, hclaimed, hreads⟩ := hready.exists_claimed now
  have hch : Change (.claim name now) r b := .claimed hopen hclaimed
  have hclaim := Store.claim_of_split hk hjobs hr hsplit hclaimed
  rw [Row.toJob_of_reads hreads] at hclaim
  have hkeyed := keyed_next (c := .claim name now) hk
  rw [Call.next, hclaim] at hkeyed
  refine ⟨pre, post, b, _, hsplit, hclaimed, hreads, logged_of_change hch hready.logged,
    Row.isInAttempt_iff.mpr ⟨hch.status_of_claim, hreads.attempts⟩, ?_, hkeyed, hclaim⟩
  -- the attempts of the job count the claim
  have hattempts := hch.attempts_eq
  rw [hreads.attempts, hready.reads.attempts, Call.isClaim, if_pos rfl] at hattempts
  exact UInt32.le_iff_toNat_le.mpr (by rw [show (1 : UInt32).toNat = 1 from rfl]; omega)

/-- The attempt that a row is in is ended by any outcome. -/
theorem finish_of_split {s : Store} (hk : Keyed s.rows) (hjobs : s.schema.hasJobs)
    {pre post : List Row} {b : Row} (hsplit : s.rows = pre ++ b :: post) {j : Job}
    (hreads : b.Reads j) (hlog : b.Logged) (hheld : b.isInAttempt j.attempts) (o : Outcome)
    (now : Instant) :
    ∃ r', b.finishedWith o now = some r' ∧
      s.finish j.id j.attempts o now = (.ok true, { s with rows := pre ++ r' :: post }) := by
  have hmem : b ∈ s.rows := by simp [hsplit]
  obtain ⟨id, hid⟩ := hk.ids b hmem
  obtain rfl := hreads.id_eq hid
  have hnew := Row.finishedWith_text (hlog.events_eq hreads).1 o now
  have hch : Change (.finish j.id j.attempts o now) b _ := .finished (is_iff.mpr hid) hheld hnew
  refine ⟨_, hnew, ?_⟩
  rw [Store.finish_of_row? hk hjobs ((rowOf?_eq_some_iff hk).mpr ⟨hmem, hid⟩) hheld hnew,
    Store.replace_of_split hk hsplit hch.id_eq]

section

variable {t : Task} {S : Session} {α β : Type} {payload : Format α} {result : Format β}
  {handler : Handler α β}

/-- A step of a worker closes the attempt that it opens. -/
theorem step_closes (hk : Keyed S.store.rows) (hjobs : S.store.schema.hasJobs)
    (hlink : S.link.refusals = {}) {r : Row} {i : Job}
    (hr : S.store.claimable t.name (S.supply.reading 0) = some r) (hready : r.Ready i)
    (hexec : t.execute = Task.executeWith payload result handler)
    (hpure : ∀ ctx now s, (handler ctx now s).store = s)
    (hdelay : ∀ n, 1 ≤ n → n < t.maxAttempts → ∃ d, t.backoff.delay n = .ok d)
    (cancelled : Bool) :
    ∃ (pre post : List Row) (r' : Row) (s : Store) (j : Job) (o : Outcome),
      S.store.rows = pre ++ r :: post ∧
      S.store.claim t.name (S.supply.reading 0) = (.ok (some j), s) ∧
      t.Ends payload result handler j (S.supply.reading 1) s (S.supply.reading 2) o ∧
      r.Closed r' (S.supply.reading 0) o (S.supply.reading 2) ∧
      (Worker.step t cancelled S).1 = .claimed ∧
      (Worker.step t cancelled S).2.store = { S.store with rows := pre ++ r' :: post } := by
  obtain ⟨pre, post, b, j, hsplit, hclaimed, hreads, hlog, hheld, hone, hkeyed, hclaim⟩ :=
    opened_of_ready hk hjobs hr hready
  obtain ⟨o, ho, hends⟩ := exists_ends payload result handler (S.supply.reading 1)
    (S.supply.reading 2) { S.store with rows := pre ++ b :: post } (hdelay _ hone)
  obtain ⟨r', hfinished, hfinish⟩ :=
    finish_of_split (s := { S.store with rows := pre ++ b :: post }) hkeyed hjobs rfl hreads hlog
      hheld o (S.supply.reading 2)
  obtain ⟨hreport, hstore⟩ := Worker.step_of_some hlink cancelled hclaim
    (by rw [hexec, store_of_executeWith hpure]) (by rw [hexec]; exact ho) hfinish
  exact ⟨pre, post, r', _, j, o, hsplit, hclaim, hends,
    Row.closed_of_finished hready.logged hclaimed hfinished, hreport, hstore⟩

/-- Whatever a handler does that leaves the store alone, a step of its worker finds no row to
claim and leaves the store as it is, or closes the row that a claim takes and leaves all others.
The row ends with the outcome of what the payload and the handler did. -/
theorem attempt_closed {cs : List Call}
    (hload : ∀ r ∈ (Store.empty.after cs).rows, ∃ j, r.toJob = .ok j)
    (hroom : ∀ r ∈ (Store.empty.after cs).rows, r.attempts < 2 ^ 32 - 1)
    (hexec : t.execute = Task.executeWith payload result handler)
    (hpure : ∀ ctx now s, (handler ctx now s).store = s)
    (hdelay : ∀ n, 1 ≤ n → n < t.maxAttempts → ∃ d, t.backoff.delay n = .ok d)
    (hstore : S.store = Store.empty.after cs) (hlink : S.link.refusals = {}) (cancelled : Bool) :
    ((∀ r ∈ S.store.rows, ¬ r.isClaimable t.name (Stamp.ofInstant (S.supply.reading 0))) ∧
      (Worker.step t cancelled S).1 = .idle ∧ (Worker.step t cancelled S).2.store = S.store) ∨
    ∃ (pre post : List Row) (r r' : Row) (s : Store) (j : Job) (o : Outcome),
      S.store.rows = pre ++ r :: post ∧
      S.store.claimable t.name (S.supply.reading 0) = some r ∧
      S.store.claim t.name (S.supply.reading 0) = (.ok (some j), s) ∧
      t.Ends payload result handler j (S.supply.reading 1) s (S.supply.reading 2) o ∧
      r.Closed r' (S.supply.reading 0) o (S.supply.reading 2) ∧
      (Worker.step t cancelled S).1 = .claimed ∧
      (Worker.step t cancelled S).2.store = { S.store with rows := pre ++ r' :: post } := by
  have hk : Keyed S.store.rows := hstore ▸ keyed_after cs keyed_empty
  have hjobs : S.store.schema.hasJobs := hstore ▸ hasJobs_after cs
  cases hr : S.store.claimable t.name (S.supply.reading 0) with
  | none =>
      obtain ⟨hreport, hsame⟩ :=
        Worker.step_of_none hlink cancelled (Store.claim_of_none hjobs hr)
      refine .inl ⟨fun r hmem hopen => ?_, hreport, hsame⟩
      obtain ⟨b, hb⟩ := Store.exists_claimable hmem hopen
      rw [hr] at hb
      cases hb
  | some r =>
      have hmem : r ∈ (Store.empty.after cs).rows := hstore ▸ (Store.mem_of_claimable hr).1
      obtain ⟨i, hi⟩ := hload r hmem
      obtain ⟨pre, post, r', s, j, o, hsplit, hclaim, hends, hclosed, hreport, hafter⟩ :=
        step_closes hk hjobs hlink hr (ready_after hroom hmem (Row.reads_of_toJob hi)) hexec hpure
          hdelay cancelled
      exact .inr ⟨pre, post, r, r', s, j, o, hsplit, rfl, hclaim, hends, hclosed, hreport, hafter⟩

end

theorem mailbox_whole : ∀ j ∈ mailbox, j.IsWhole := by
  have hbill : Job.bill.IsWhole := Job.isWhole_new (by rfl) (by rfl) null_isKept
    (Instant.isWhole_ofSecond 0) (Instant.isWhole_ofSecond 0)
  simp only [mailbox, List.forall_mem_cons]
  exact ⟨hbill, letter_isWhole 1 0 30, letter_isWhole 2 0 5, letter_isWhole 3 0 10,
    fun _ h => absurd h List.not_mem_nil⟩

theorem sample_first_delay : Task.sample.backoff.delay 1 = .ok (.ofSecs 1) := by decide +kernel

/-- The task has a delay after each attempt but the last. -/
theorem sample_delay {n : UInt32} (hn : 1 ≤ n) (hlt : n < Task.sample.maxAttempts) :
    ∃ d, Task.sample.backoff.delay n = .ok d := by
  have htwo : Task.sample.backoff.delay 2 = .ok (.ofSecs 2) := by decide +kernel
  have hcases : n = 1 ∨ n = 2 := by
    have hmax : Task.sample.maxAttempts.toNat = 3 := rfl
    rw [UInt32.le_iff_toNat_le, show (1 : UInt32).toNat = 1 from rfl] at hn
    rw [UInt32.lt_iff_toNat_lt, hmax] at hlt
    rw [← UInt32.toNat_inj, ← UInt32.toNat_inj, show (1 : UInt32).toNat = 1 from rfl,
      show (2 : UInt32).toNat = 2 from rfl]
    omega
  rcases hcases with rfl | rfl
  · exact ⟨_, sample_first_delay⟩
  · exact ⟨_, htwo⟩

/-- The first attempt ends with a request for another one. -/
theorem sample_first_end {j : Job} (hj : j.attempts = 1) {start stop : Instant} {s : Store}
    {o : Outcome}
    (h : Task.sample.Ends .unit .unit sender j start s stop o) (hdata : j.data = .null) :
    o = .retry "busy" ((stop.after? (.ofSecs 1)).getD .latest) := by
  have hverdict (model : Unit) :
      (sender (Task.context model j start) start s).verdict = .failed (.retry "busy") := if_pos hj
  cases h with
  | undecoded payload_error =>
      rw [hdata] at payload_error
      cases payload_error
  | returned _ verdict => cases (hverdict _).symm.trans verdict
  | unencoded _ verdict => cases (hverdict _).symm.trans verdict
  | cancelled _ verdict => cases (hverdict _).symm.trans verdict
  | again _ verdict _ delay =>
      rw [hverdict] at verdict
      rw [hj, sample_first_delay] at delay
      cases verdict
      cases delay
      rfl
  | exhausted _ _ last =>
      rw [hj] at last
      exact absurd last (by decide)

/-- For instance, of the mails that are due the one that became so first is to be sent again in a
second, and the other jobs are left. -/
theorem attempt_closed_mailbox : ∃ r',
    (Row.ofJob (.letter 2 0 5)).Closed r' (.ofSecond 20) (.retry "busy" (.ofSecond 21))
      (.ofSecond 20) ∧
    (Worker.step .sample false .sample).2.store = ⟨.current,
      [.ofJob .bill, .ofJob (.letter 1 0 30), r', .ofJob (.letter 3 0 10)]⟩ := by
  have hids : (mailbox.map Job.id).Nodup := by decide
  have hstore : Session.sample.store = .ofJobs mailbox := Store.after_insert_ofJobs hids
  have hload : ∀ r ∈ (Store.empty.after (mailbox.map .insert)).rows, ∃ j, r.toJob = .ok j := by
    rw [Store.after_insert_ofJobs hids]
    intro r hr
    obtain ⟨j, hj, rfl⟩ := List.mem_map.mp hr
    exact ⟨j, (mailbox_whole j hj).toJob⟩
  have hroom : ∀ r ∈ (Store.empty.after (mailbox.map .insert)).rows,
      r.attempts < 2 ^ 32 - 1 := by
    rw [Store.after_insert_ofJobs hids, Store.ofJobs]
    decide
  have hnext : (Store.ofJobs mailbox).claimable "mail" (.ofSecond 20) =
      some (.ofJob (.letter 2 0 5)) := by decide +kernel
  have hanswer := Store.claim_ofJobs [.bill, .letter 1 0 30] [.letter 3 0 10] hids
    (letter_isWhole 2 0 5) (Instant.isWhole_ofSecond 20) hnext (by decide)
  rcases attempt_closed (t := .sample) (S := .sample) hload hroom rfl (fun _ _ _ => rfl)
      (fun _ => sample_delay) rfl rfl false with
    ⟨hidle, -⟩ | ⟨pre, post, r, r', s, j, o, hsplit, hr, hclaim, hends, hclosed, -, hafter⟩
  · rw [hstore] at hidle
    obtain ⟨hmem, hopen⟩ := Store.mem_of_claimable hnext
    exact absurd hopen (hidle _ hmem)
  rw [hstore] at hsplit hr hclaim hafter
  obtain rfl : .ofJob (.letter 2 0 5) = r := Option.some.inj (hnext.symm.trans hr)
  obtain rfl := Option.some.inj (Except.ok.inj (congrArg Prod.fst (hanswer.symm.trans hclaim)))
  obtain rfl := sample_first_end rfl hends rfl
  obtain ⟨rfl, rfl⟩ :=
    Store.eq_of_ofJobs_split [.bill, .letter 1 0 30] [.letter 3 0 10] hids hsplit
  exact ⟨r', hclosed, hafter⟩

end JobQueue
