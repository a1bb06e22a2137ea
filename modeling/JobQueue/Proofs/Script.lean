import JobQueue.Proofs.Record
import JobQueue.Proofs.Workers
import Mathlib.Data.List.Range

/-!
# JobQueue.Proofs.Script

What a handler makes of a job, if it is a function of the payload and of the number of
the attempt: it is a script that says how many attempts there are and how the last one
ends.

- `lastAttempt` is the first attempt that does not ask for another one, or the last
  that there may be.
- A row follows the script (`Follows`): the attempts before its own all asked for
  another one, and if it is done then it shows how the last attempt ended. Claims and
  reported outcomes keep it (`follows_claimed`, `follows_finished`).
-/

namespace JobQueue

/-- Jobs, and how they are handled. -/
structure Plan where
  jobs : List Job
  /-- What the handler makes of a payload in an attempt. -/
  handle : Json → UInt32 → Except HandlerError Json
  maxAttempts : UInt32
  backoff : Backoff

/-- Whether the result of an attempt asks for another one. -/
def asksAgain : Except HandlerError Json → Bool
  | .ok _ => false
  | .error e => e.isRetryable

/-- A row shows how the last attempt ended. -/
def Row.Shows (r : Row) : Except HandlerError Json → Prop
  | .ok v => r.status = ofStatus .completed ∧ r.result = .text v.render
  | .error (.cancel reason) => r.status = ofStatus .cancelled ∧ r.reason = .text reason
  | .error (.retry error) => r.status = ofStatus .failed ∧ r.error = .text error

/-- Rows that show the same end of a job have the same status, result and reason. -/
theorem Row.Shows.agree {r r' : Row} {x : Except HandlerError Json} (hr : r.Recorded)
    (hr' : r'.Recorded) (h : r.Shows x) (h' : r'.Shows x) :
    r.status = r'.status ∧ r.result = r'.result ∧ r.reason = r'.reason := by
  match x with
  | .ok _ =>
      refine ⟨h.1.trans h'.1.symm, h.2.trans h'.2.symm, ?_⟩
      rw [hr.reason_eq_null h.1 (by decide), hr'.reason_eq_null h'.1 (by decide)]
  | .error (.cancel _) =>
      refine ⟨h.1.trans h'.1.symm, ?_, h.2.trans h'.2.symm⟩
      rw [hr.result_eq_null h.1 (by decide), hr'.result_eq_null h'.1 (by decide)]
  | .error (.retry _) =>
      refine ⟨h.1.trans h'.1.symm, ?_, ?_⟩
      · rw [hr.result_eq_null h.1 (by decide), hr'.result_eq_null h'.1 (by decide)]
      · rw [hr.reason_eq_null h.1 (by decide), hr'.reason_eq_null h'.1 (by decide)]

namespace Plan

/-- There is something to attempt, and the jobs can be told apart and are read back as
they were written. -/
structure Valid (p : Plan) : Prop where
  attempts_pos : 1 ≤ p.maxAttempts
  isNew : ∀ j ∈ p.jobs, j.IsNew
  nodup : (p.jobs.map Job.id).Nodup
  readable : ∀ j ∈ p.jobs, Json.parse j.data.render = .ok j.data

/-- Whether the handler asks for another attempt after the `n`-th one. -/
def retries (p : Plan) (v : Json) (n : Nat) : Bool := asksAgain (p.handle v (.ofNat n))

/-- The first attempt after which the handler does not ask for another one, or the last
that there may be. -/
def lastAttempt (p : Plan) (v : Json) : Nat :=
  ((List.range' 1 p.maxAttempts.toNat).find? fun n => !p.retries v n).getD p.maxAttempts.toNat

/-- The script comes to the `n`-th attempt. -/
structure Reaches (p : Plan) (v : Json) (n : Nat) : Prop where
  pos : 1 ≤ n
  le : n ≤ p.maxAttempts.toNat
  retries : ∀ i, 1 ≤ i → i < n → p.retries v i = true

variable {p : Plan} {v : Json}

/-! ## The last attempt -/

theorem reaches_one (hp : p.Valid) : p.Reaches v 1 where
  pos := Nat.le_refl 1
  le := UInt32.le_iff_toNat_le.mp hp.attempts_pos
  retries i h₁ h₂ := by omega

/-- The script goes on after an attempt that asks for another one, if there may be one. -/
theorem Reaches.succ {n : Nat} (h : p.Reaches v n) (hlt : n < p.maxAttempts.toNat)
    (hretry : p.retries v n = true) : p.Reaches v (n + 1) where
  pos := Nat.succ_le_succ (Nat.zero_le n)
  le := hlt
  retries i h₁ h₂ := by
    by_cases heq : i = n
    · rw [heq, hretry]
    · exact h.retries i h₁ (by omega)

/-- The script does not come past the last attempt. -/
theorem Reaches.le_lastAttempt {n : Nat} (h : p.Reaches v n) : n ≤ p.lastAttempt v := by
  rw [lastAttempt]
  cases hfind : (List.range' 1 p.maxAttempts.toNat).find? fun n => !p.retries v n with
  | none => exact h.le
  | some k =>
      obtain ⟨hk, hmem, -⟩ := List.find?_range'_eq_some.mp hfind
      rw [Option.getD_some]
      have hpos : 1 ≤ k := (List.mem_range'_1.mp hmem).1
      by_contra hlt
      rw [h.retries k hpos (by omega)] at hk
      exact absurd hk (by decide)

/-- The script ends with an attempt that asks for no other one or is the last there may be. -/
theorem Reaches.eq_lastAttempt {n : Nat} (h : p.Reaches v n)
    (hend : p.retries v n = false ∨ n = p.maxAttempts.toNat) : n = p.lastAttempt v := by
  refine Nat.le_antisymm h.le_lastAttempt ?_
  rw [lastAttempt]
  cases hfind : (List.range' 1 p.maxAttempts.toNat).find? fun n => !p.retries v n with
  | none =>
      rw [Option.getD_none]
      rcases hend with hend | hend
      · have hmem : n ∈ List.range' 1 p.maxAttempts.toNat :=
          List.mem_range'_1.mpr ⟨h.pos, by have := h.le; omega⟩
        have hnot := List.find?_eq_none.mp hfind n hmem
        rw [hend] at hnot
        exact absurd rfl hnot
      · exact Nat.le_of_eq hend.symm
  | some k =>
      obtain ⟨-, hmem, hbefore⟩ := List.find?_range'_eq_some.mp hfind
      rw [Option.getD_some]
      rcases hend with hend | hend
      · by_contra hlt
        have hnot := hbefore n h.pos (by omega)
        rw [hend] at hnot
        exact absurd hnot (by decide)
      · have hk := (List.mem_range'_1.mp hmem).2
        omega

/-! ## Rows that follow the script -/

/-- A row is where the script says after as many attempts as it counts. -/
inductive Follows (p : Plan) (v : Json) (r : Row) : Prop where
  | waiting {n : Nat} (status : r.status = Row.ofStatus .enqueued) (attempts : r.attempts = n)
      (next : p.Reaches v (n + 1))
  | working {n : Nat} (status : r.status = Row.ofStatus .dequeued) (attempts : r.attempts = n)
      (current : p.Reaches v n)
  | done (attempts : r.attempts = p.lastAttempt v)
      (shows_ : r.Shows (p.handle v (.ofNat (p.lastAttempt v))))

theorem follows_ofJob (hp : p.Valid) {j : Job} (hj : j.IsNew) : p.Follows v (Row.ofJob j) := by
  refine .waiting (n := 0) ?_ ?_ (reaches_one hp)
  · rw [hj]
    rfl
  · rw [hj]
    rfl

/-- A row that shows how the last attempt ended is done. -/
theorem isTerminal_of_shows {r : Row} {x : Except HandlerError Json} (h : r.Shows x) :
    r.isTerminal := by
  match x with
  | .ok _ => exact (Row.isTerminal_of_status h.1).mpr rfl
  | .error (.cancel _) => exact (Row.isTerminal_of_status h.1).mpr rfl
  | .error (.retry _) => exact (Row.isTerminal_of_status h.1).mpr rfl

/-- A row that is done shows how the last attempt ended. -/
theorem Follows.done_of_isTerminal {r : Row} (h : p.Follows v r) (hdone : r.isTerminal) :
    r.attempts = p.lastAttempt v ∧ r.Shows (p.handle v (.ofNat (p.lastAttempt v))) := by
  cases h with
  | waiting status _ _ =>
      have hopen := (Row.isTerminal_of_status status).mp hdone
      exact absurd hopen (by decide)
  | working status _ _ =>
      have hopen := (Row.isTerminal_of_status status).mp hdone
      exact absurd hopen (by decide)
  | done attempts shows_ => exact ⟨attempts, shows_⟩

/-- No row counts more attempts than there are. -/
theorem Follows.attempts_le {r : Row} (h : p.Follows v r) : r.attempts ≤ p.lastAttempt v := by
  cases h with
  | waiting _ attempts next =>
      have hle := next.le_lastAttempt
      omega
  | working _ attempts current =>
      have hle := current.le_lastAttempt
      omega
  | done attempts _ => exact Int.le_of_eq attempts

/-- A claim comes to the next attempt. -/
theorem follows_claimed {r r' : Row} {name stamp : String} {now : Instant} (h : p.Follows v r)
    (hopen : r.isClaimable name stamp) (eq : r.claimed now = some r') : p.Follows v r' := by
  have henqueued := Row.status_of_isClaimable hopen
  obtain ⟨events, -, eq⟩ := Row.claimed_eq_some eq
  cases h with
  | waiting _ attempts next => exact .working (by rw [eq]) (by rw [eq, attempts]; rfl) next
  | working status _ _ =>
      rw [status, Row.ofStatus_inj] at henqueued
      exact absurd henqueued (by decide)
  | done _ shows_ =>
      have hdone := (Row.isTerminal_of_status henqueued).mp (isTerminal_of_shows shows_)
      exact absurd hdone (by decide)

/-! ## Reported outcomes -/

/-- What is reported of the current attempt goes on with the script, or shows how it ends. -/
theorem follows_finished {r r' : Row} {n : UInt32} {o : Outcome} {now : Instant}
    (h : p.Follows v r) (hheld : r.isInAttempt n)
    (ho : Outcome.decide (p.handle v n) n p.maxAttempts p.backoff now = .ok o)
    (eq : r.finishedWith o now = some r') : p.Follows v r' := by
  obtain ⟨hdeq, hn⟩ := Row.isInAttempt_iff.mp hheld
  obtain ⟨events, -, eq⟩ := Row.finishedWith_eq_some eq
  have hstatus : r'.status = Row.ofStatus o.status := by rw [eq, Row.withOutcome_status]
  have hattempts : r'.attempts = n.toNat := by rw [eq, Row.withOutcome_attempts, hn]
  have hcurrent : p.Reaches v n.toNat := by
    cases h with
    | waiting status _ _ =>
        rw [status, Row.ofStatus_inj] at hdeq
        exact absurd hdeq (by decide)
    | working _ attempts current =>
        rw [attempts, Int.natCast_inj] at hn
        exact hn ▸ current
    | done _ shows_ =>
        have hdone := (Row.isTerminal_of_status hdeq).mp (isTerminal_of_shows shows_)
        exact absurd hdone (by decide)
  have hsame : UInt32.ofNat n.toNat = n := UInt32.ofNat_toNat
  have hretries : p.retries v n.toNat = asksAgain (p.handle v n) := by rw [retries, hsame]
  -- an attempt after which there is no other one shows its result
  have hdone (hend : p.retries v n.toNat = false ∨ n.toNat = p.maxAttempts.toNat)
      (hshows : r'.Shows (p.handle v n)) : p.Follows v r' := by
    have hlast := hcurrent.eq_lastAttempt hend
    refine .done (by rw [hattempts, hlast]) ?_
    rwa [← hlast, hsame]
  rcases Outcome.decide_cases ho with ⟨w, hx, rfl⟩ | ⟨t, hx, rfl⟩ | ⟨t, hx, hle, rfl⟩ |
    ⟨t, d, hx, hlt, -, rfl⟩
  · refine hdone (.inl (by rw [hretries, hx]; rfl)) ?_
    rw [hx]
    exact ⟨hstatus, by rw [eq]; rfl⟩
  · refine hdone (.inl (by rw [hretries, hx]; rfl)) ?_
    rw [hx]
    exact ⟨hstatus, by rw [eq]; rfl⟩
  · have hle' := UInt32.le_iff_toNat_le.mp hle
    refine hdone (.inr (Nat.le_antisymm hcurrent.le hle')) ?_
    rw [hx]
    exact ⟨hstatus, by rw [eq]; rfl⟩
  · have hlt' : n.toNat < p.maxAttempts.toNat := by
      rw [UInt32.le_iff_toNat_le] at hlt
      omega
    refine .waiting hstatus hattempts (hcurrent.succ hlt' ?_)
    rw [hretries, hx]
    rfl

end Plan

end JobQueue
