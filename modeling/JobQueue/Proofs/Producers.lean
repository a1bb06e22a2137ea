import JobQueue.Proofs.Calls
import JobQueue.Sweep
import JobQueue.Task.Cleanup

/-!
# JobQueue.Proofs.Producers

What producers and the reaper do to a store, as calls of its operations.

- A request for a job is one insertion or none, also over a link that fails
  (`Queue.enqueueBlueprint_becomes`).
- A sweep takes back claims and inserts periodic jobs, each with its period as isolation
  (`Sweep.sweep_becomes`).
- The task that cleans up removes the jobs that were done before its retention
  (`Cleanup.handler_store`).
-/

namespace JobQueue

/-- A store becomes another one through calls of a kind. -/
def Store.Becomes (s : Store) (P : Call → Prop) (s' : Store) : Prop :=
  ∃ cs, s' = s.after cs ∧ ∀ c ∈ cs, P c

namespace Store.Becomes

variable {s s' s'' : Store} {P Q : Call → Prop}

theorem refl (s : Store) (P : Call → Prop) : s.Becomes P s :=
  ⟨[], rfl, fun _ h => absurd h List.not_mem_nil⟩

theorem single {c : Call} (h : P c) : s.Becomes P (c.next s) :=
  ⟨[c], rfl, fun d hd => by rwa [List.mem_singleton.mp hd]⟩

theorem trans (h : s.Becomes P s') (h' : s'.Becomes P s'') : s.Becomes P s'' := by
  obtain ⟨cs, rfl, hcs⟩ := h
  obtain ⟨ds, rfl, hds⟩ := h'
  refine ⟨cs ++ ds, (Store.after_append s cs ds).symm, fun c hc => ?_⟩
  exact (List.mem_append.mp hc).elim (hcs c) (hds c)

theorem mono (h : s.Becomes P s') (hPQ : ∀ c, P c → Q c) : s.Becomes Q s' := by
  obtain ⟨cs, heq, hcs⟩ := h
  exact ⟨cs, heq, fun c hc => hPQ c (hcs c hc)⟩

end Store.Becomes

/-! ## Links -/

namespace Link

variable {l : Link} {P : Call → Prop}

theorem insert_becomes {j : Job} (h : P (.insert j)) :
    l.store.Becomes P (l.insert j).2.store := by
  unfold insert
  split
  · exact .refl _ P
  · exact .single h

theorem insertIfAbsent_becomes {j : Job} {t : Instant} (h : P (.insertIfAbsent j t)) :
    l.store.Becomes P (l.insertIfAbsent j t).2.store := by
  unfold insertIfAbsent
  split
  · exact .refl _ P
  · exact .single h

theorem requeue_becomes {name : String} {startedBefore now : Instant}
    (h : P (.requeue name startedBefore now)) :
    l.store.Becomes P (l.requeue name startedBefore now).2.store := by
  unfold requeue
  split
  · exact .refl _ P
  · exact .single h

end Link

/-! ## Requests -/

/-- The insertion of a job, with an isolation or without. -/
def Call.insertion (j : Job) : Option Duration → Call
  | none => .insert j
  | some window => .insertIfAbsent j (j.created.before window)

namespace Queue

variable {s : Session}

/-- A job that is built is new, and of its name and label. -/
theorem build_isNew {id : JobId} {now : Instant} {name : String} {b : Blueprint} {j : Job}
    (h : build id now name b = .ok j) :
    j.IsNew ∧ j.name = name ∧ j.label = b.label ∧ j.data = b.data := by
  unfold build at h
  split at h
  · cases h
  · split at h
    · cases h
    · cases h
      exact ⟨rfl, rfl, rfl, rfl⟩

theorem draft_store (name : String) (b : Blueprint) (s : Session) :
    (draft name b s).2.store = s.store := by
  rw [draft]
  dsimp only
  split <;> rfl

/-- A job that is drafted is new, and of its name and label. -/
theorem draft_isNew {name : String} {b : Blueprint} {j : Job} {s' : Session}
    (h : draft name b s = (.ok j, s')) :
    j.IsNew ∧ j.name = name ∧ j.label = b.label ∧ j.data = b.data := by
  unfold draft at h
  dsimp only at h
  split at h
  · cases h
  · next hbuild =>
      cases h
      exact build_isNew hbuild

/-- A request for a job of a blueprint inserts a new job of its name, label and payload with
the isolation that it asks for, or it inserts none. -/
theorem enqueueBlueprint_becomes (name : String) (b : Blueprint) (isolation : Option Duration)
    (s : Session) :
    s.store.Becomes (fun c => ∃ j : Job, j.IsNew ∧ j.name = name ∧ j.label = b.label ∧
      j.data = b.data ∧ c = .insertion j isolation)
      (enqueueBlueprint name b isolation s).2.store := by
  have hstore := draft_store name b s
  unfold enqueueBlueprint
  split
  · next heq =>
      rw [heq] at hstore
      rw [← hstore]
      exact .refl _ _
  · next j s' heq =>
      obtain ⟨hnew, hname, hlabel, hdata⟩ := draft_isNew heq
      rw [heq] at hstore
      rw [← hstore]
      cases isolation with
      | none => exact Link.insert_becomes ⟨j, hnew, hname, hlabel, hdata, rfl⟩
      | some window => exact Link.insertIfAbsent_becomes ⟨j, hnew, hname, hlabel, hdata, rfl⟩

/-- A request for a job of a payload inserts a new job of its name and payload, or none. -/
theorem enqueue_becomes {α : Type} (f : Format α) (name : String) (payload : α)
    (delay : Duration) (s : Session) :
    s.store.Becomes (fun c => ∃ j : Job, j.IsNew ∧ j.name = name ∧ f.encode payload = .ok j.data ∧
      c = .insert j) (enqueue f name payload delay s).2.store := by
  unfold enqueue
  split
  · exact .refl _ _
  · next b hb =>
      have hstore := draft_store name b s
      have hdata : f.encode payload = .ok b.data := by
        cases hencode : f.encode payload with
        | error e =>
            rw [Blueprint.ofPayload, hencode] at hb
            cases hb
        | ok data =>
            rw [Blueprint.ofPayload, hencode] at hb
            cases hb
            rfl
      split
      · next heq =>
          rw [heq] at hstore
          rw [← hstore]
          exact .refl _ _
      · next j s' heq =>
          obtain ⟨hnew, hname, -, hdata'⟩ := draft_isNew heq
          rw [heq] at hstore
          rw [← hstore]
          exact Link.insert_becomes ⟨j, hnew, hname, hdata'.symm ▸ hdata, rfl⟩

end Queue

/-! ## The reaper -/

/-- What a sweep calls for a task. -/
def Task.Sweeps (t : Task) (now : Instant) (c : Call) : Prop :=
  c = .requeue t.name (now.before t.lifetime) now ∨
    ∃ p j, t.periodic = some p ∧ j.IsNew ∧ j.name = t.name ∧ j.label = p.blueprint.label ∧
      j.data = p.blueprint.data ∧ c = .insertIfAbsent j (j.created.before p.every)

namespace Sweep

theorem recover_becomes (t : Task) (now : Instant) (s : Session) :
    s.store.Becomes (t.Sweeps now) (recover t now s).store :=
  Link.requeue_becomes (.inl rfl)

theorem schedule_becomes (t : Task) (now : Instant) (s : Session) :
    s.store.Becomes (t.Sweeps now) (schedule t s).store := by
  unfold schedule
  split
  · exact .refl _ _
  · next p hp =>
      refine (Queue.enqueueBlueprint_becomes t.name p.blueprint (some p.every) s).mono ?_
      rintro c ⟨j, hnew, hname, hlabel, hdata, rfl⟩
      exact .inr ⟨p, j, hp, hnew, hname, hlabel, hdata, rfl⟩

/-- A sweep takes back claims of its tasks and inserts their periodic jobs, each isolated by
its period. -/
theorem sweep_becomes (tasks : List Task) (now : Instant) (s : Session) :
    s.store.Becomes (fun c => ∃ t ∈ tasks, t.Sweeps now c) (sweep tasks now s).store := by
  induction tasks generalizing s with
  | nil => exact .refl _ _
  | cons t tasks ih =>
      have hfirst := (recover_becomes t now s).trans (schedule_becomes t now (recover t now s))
      have hrest := ih (schedule t (recover t now s))
      exact (hfirst.mono fun c hc => ⟨t, List.mem_cons_self, hc⟩).trans
        (hrest.mono fun c ⟨u, hu, hc⟩ => ⟨u, List.mem_cons_of_mem _ hu, hc⟩)

end Sweep

/-- The task that cleans up removes the jobs that were done before its retention. -/
theorem Cleanup.handler_store (retention : Duration) (context : Context Unit) (now : Instant)
    (s : Store) :
    (handler retention context now s).store =
      (Call.deleteFinished (now.before retention)).next s := by
  rw [handler, Call.next]
  rcases hanswer : s.deleteFinished (now.before retention) with ⟨_ | n, s'⟩ <;> rfl

end JobQueue
