import JobQueue.Proofs.Producers
import JobQueue.Proofs.Validity
import JobQueue.Worker

/-!
# JobQueue.Proofs.Workers

What workers do to a store, as calls of its operations.

- What a handler returned is decided to an outcome (`Outcome.decide_cases`): another attempt
  needs one that is left, and is due after a delay.
- A worker claims jobs of its task and reports outcomes that are decided so, with the
  attempts that it was given and the settings of the task (`Worker.step_becomes`).
-/

namespace JobQueue

/-! ## Decisions -/

namespace Outcome

variable {x : Except HandlerError Json} {n m : UInt32} {b : Backoff} {now : Instant} {o : Outcome}

/-- What is decided of an attempt. -/
theorem decide_cases (h : decide x n m b now = .ok o) :
    (∃ w, x = .ok w ∧ o = .completed w) ∨
      (∃ reason, x = .error (.cancel reason) ∧ o = .cancelled reason) ∨
      (∃ error, x = .error (.retry error) ∧ m ≤ n ∧ o = .failed error) ∨
      ∃ error d, x = .error (.retry error) ∧ ¬ m ≤ n ∧ b.delay n = .ok d ∧
        o = .retry error ((now.after? d).getD .latest) := by
  match x with
  | .ok w => exact .inl ⟨w, rfl, (Except.ok.inj h).symm⟩
  | .error (.cancel reason) => exact .inr (.inl ⟨reason, rfl, (Except.ok.inj h).symm⟩)
  | .error (.retry error) =>
      rw [decide] at h
      split at h
      · next hle => exact .inr (.inr (.inl ⟨error, rfl, hle, (Except.ok.inj h).symm⟩))
      · next hlt =>
          cases hdelay : b.delay n with
          | error e =>
              rw [hdelay] at h
              cases h
          | ok d =>
              rw [hdelay] at h
              exact .inr (.inr (.inr ⟨error, d, rfl, hlt, rfl, (Except.ok.inj h).symm⟩))

/-- Another attempt is one that is left, and is due after a delay. -/
theorem of_decide_retry {error : String} {available : Instant}
    (h : decide x n m b now = .ok (.retry error available)) :
    n < m ∧ ∃ d, b.delay n = .ok d ∧ available = (now.after? d).getD .latest := by
  rcases decide_cases h with ⟨w, -, ho⟩ | ⟨reason, -, ho⟩ | ⟨e, -, -, ho⟩ | ⟨e, d, -, hlt, hd, ho⟩
  · cases ho
  · cases ho
  · cases ho
  · cases ho
    exact ⟨UInt32.not_le.mp hlt, d, hd, rfl⟩

/-- A job fails where no attempt is left. -/
theorem le_of_decide_failed {error : String} (h : decide x n m b now = .ok (.failed error)) :
    m ≤ n := by
  rcases decide_cases h with ⟨w, -, ho⟩ | ⟨reason, -, ho⟩ | ⟨e, -, hle, ho⟩ | ⟨e, d, -, -, -, ho⟩
  · cases ho
  · cases ho
  · exact hle
  · cases ho

/-- Where no attempt is left, the job is done. -/
theorem isTerminal_of_decide (h : decide x n m b now = .ok o) (hle : m ≤ n) :
    o.isTerminal = true := by
  rcases decide_cases h with ⟨w, -, rfl⟩ | ⟨reason, -, rfl⟩ | ⟨e, -, -, rfl⟩ | ⟨e, d, -, hlt, -⟩
  · rfl
  · rfl
  · rfl
  · exact absurd hle hlt

end Outcome

/-- Where the settings are usable, a delay is at least the shortest one. -/
theorem Task.min_le_delay {t : Task} (h : t.checkBackoff = .ok ()) {n : UInt32} {d : Duration}
    (hd : t.backoff.delay n = .ok d) : t.backoff.min ≤ d := by
  rcases Backoff.delay_eq_max_or_min_le hd with rfl | hle
  · exact (checkBackoff_eq_ok_iff.mp h).max
  · exact hle

/-! ## Links -/

namespace Link

variable {l : Link} {P : Call → Prop}

theorem claim_becomes {name : String} {now : Instant} (h : P (.claim name now)) :
    l.store.Becomes P (l.claim name now).2.store := by
  unfold claim
  split
  · exact .refl _ P
  · exact .refl _ P
  · exact .single h

/-- Claims that are taken back and given out again. -/
theorem reclaim_becomes (s : Store) (id : JobId) {now : Instant}
    (h : ∀ name, P (.requeue name .latest now) ∧ P (.claim name now)) :
    s.Becomes P (reclaim s id now) := by
  unfold reclaim
  split
  · exact .refl s P
  · next name _ => exact (Store.Becomes.single (h name).1).trans (.single (h name).2)

theorem finish_becomes {id : JobId} {n : UInt32} {o : Outcome} {now : Instant}
    (h : P (.finish id n o now))
    (hreclaim : ∀ name, P (.requeue name .latest now) ∧ P (.claim name now)) :
    l.store.Becomes P (l.finish id n o now).2.store := by
  unfold finish
  split
  · exact .refl _ P
  · exact (reclaim_becomes l.store id hreclaim).trans (.single h)
  · exact .single h

end Link

/-! ## Workers -/

/-- What a worker of a task calls. -/
inductive Task.Works (t : Task) : Call → Prop where
  | claims (now : Instant) : t.Works (.claim t.name now)
  | reports {id : JobId} {n : UInt32} {result : Except HandlerError Json} {o : Outcome}
      {now : Instant} (decided : Outcome.decide result n t.maxAttempts t.backoff now = .ok o) :
      t.Works (.finish id n o now)

namespace Worker

variable {t : Task} {P : Call → Prop}

theorem record_becomes {a : Attempt} {o : Outcome} {ended : Instant} (cancelled : Bool)
    (h : P (.finish a.id a.number o ended))
    (hreclaim : ∀ name now, P (.requeue name .latest now) ∧ P (.claim name now))
    (refusals waited : Nat) (s : Session) :
    s.store.Becomes P (record t a o ended cancelled refusals waited s).store := by
  have hfinish (s : Session) : s.store.Becomes P (tryRecord a o ended s).2.store :=
    Link.finish_becomes h fun name => hreclaim name ended
  -- every refusal is followed by one more report at most
  induction refusals generalizing waited s with
  | zero =>
      have hstep := hfinish s
      unfold record
      split
      · next heq => rwa [heq] at hstep
      · next heq =>
          rw [heq] at hstep
          split <;> exact hstep
  | succ refusals ih =>
      have hstep := hfinish s
      unfold record
      split
      · next heq => rwa [heq] at hstep
      · next heq =>
          rw [heq] at hstep
          split
          · exact hstep
          · exact hstep.trans (ih _ _)

/-- A claim, and what the handler of the claimed job calls. -/
theorem take_becomes (hclaim : ∀ now, P (.claim t.name now))
    (hhandler : ∀ (j : Job) (now : Instant) (s : Store), s.Becomes P (t.execute j now s).store)
    (s : Session) : s.store.Becomes P (take t s).2.store := by
  have hstep : s.store.Becomes P (s.now.2.link.claim t.name s.now.1).2.store :=
    Link.claim_becomes (l := s.now.2.link) (hclaim _)
  unfold take
  dsimp only
  split
  · next heq => rwa [heq] at hstep
  · next heq => rwa [heq] at hstep
  · next heq => rwa [heq] at hstep
  · next heq =>
      rw [heq] at hstep
      exact hstep.trans (hhandler _ _ _)

/-- A step of a worker is a claim and reports of its task, what its handler calls, and what
the reaper and another worker may have called just before a report. -/
theorem step_becomes (hworks : ∀ c, t.Works c → P c)
    (hreclaim : ∀ name now, P (.requeue name .latest now) ∧ P (.claim name now))
    (hhandler : ∀ (j : Job) (now : Instant) (s : Store), s.Becomes P (t.execute j now s).store)
    (cancelled : Bool) (s : Session) : s.store.Becomes P (step t cancelled s).2.store := by
  have htake := take_becomes (fun now => hworks _ (.claims now)) hhandler s
  unfold step
  split
  · next heq => rwa [heq] at htake
  · next heq => rwa [heq] at htake
  · next heq => rwa [heq] at htake
  · next a s' heq =>
      rw [heq] at htake
      dsimp only
      split
      · exact htake
      · next o ho =>
          exact htake.trans (record_becomes cancelled (hworks _ (.reports ho)) hreclaim _ _ _)

end Worker

end JobQueue
