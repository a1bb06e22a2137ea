import JobQueue.Store.Basic

/-!
# JobQueue.Proofs.Calls

The operations of a store as data, so that what happens to a store is a list of
calls, whoever makes them: any interleaving of producers, workers and reapers is
such a list.

- `Call.next` is the store after a call, `Store.after` the store after a list.
- `Change` says all that a call can make of a row that stays, `Call.removes` which
  rows do not stay.
- For each operation there is one lemma about what it leaves: the store as it was,
  or a store with these rows.
-/

namespace JobQueue

/-! ## Calls -/

/-- A call of an operation, with its arguments. -/
inductive Call where
  | insert (j : Job)
  | insertIfAbsent (j : Job) (finishedAfter : Instant)
  | claim (name : String) (now : Instant)
  | finish (id : JobId) (attempt : UInt32) (o : Outcome) (now : Instant)
  | requeue (name : String) (startedBefore now : Instant)
  | get (id : JobId)
  | list (name : String) (status : Option Status)
  | delete (id : JobId)
  | deleteFinished (cutoff : Instant)
  | migrate (fill : Int → String)

namespace Call

/-- The store after a call. -/
def next (c : Call) (s : Store) : Store :=
  match c with
  | .insert j => (s.insert j).2
  | .insertIfAbsent j finishedAfter => (s.insertIfAbsent j finishedAfter).2
  | .claim name now => (s.claim name now).2
  | .finish id attempt o now => (s.finish id attempt o now).2
  | .requeue name startedBefore now => (s.requeue name startedBefore now).2
  | .get id => (s.get id).2
  | .list name status => (s.list name status).2
  | .delete id => (s.delete id).2
  | .deleteFinished cutoff => (s.deleteFinished cutoff).2
  | .migrate fill => (s.migrate fill).2

/-- Whether a call removes a row. -/
def removes (c : Call) (r : Row) : Bool :=
  match c with
  | .delete id => r.id.is id.text
  | .deleteFinished cutoff => r.finished.before (Stamp.ofInstant cutoff)
  | _ => false

/-- The job that a call is to insert. -/
def job? : Call → Option Job
  | .insert j => some j
  | .insertIfAbsent j _ => some j
  | _ => none

end Call

/-- Whether a job is as it was made, and was not worked on. -/
def Job.IsNew (j : Job) : Prop :=
  j = .new j.id j.name j.label j.data j.created j.available

/-- Calls that insert new jobs only. -/
def AllNew (cs : List Call) : Prop := ∀ c ∈ cs, ∀ j, c.job? = some j → j.IsNew

/-- What holds of the jobs that calls are to insert, and one more call. -/
theorem jobs_concat {P : Job → Prop} {cs : List Call} {c : Call}
    (hcs : ∀ d ∈ cs, ∀ j, d.job? = some j → P j) (hc : ∀ j, c.job? = some j → P j) :
    ∀ d ∈ cs ++ [c], ∀ j, d.job? = some j → P j := by
  intro d hd j hj
  rcases List.mem_append.mp hd with hd | hd
  · exact hcs d hd j hj
  · rw [List.mem_singleton.mp hd] at hj
    exact hc j hj

theorem jobs_insert {P : Job → Prop} {j : Job} (hj : P j) :
    ∀ d ∈ [Call.insert j], ∀ i, d.job? = some i → P i := by
  intro d hd i hi
  rw [List.mem_singleton.mp hd] at hi
  cases hi
  exact hj

theorem AllNew.concat {cs : List Call} {c : Call} (hcs : AllNew cs)
    (hc : ∀ j, c.job? = some j → j.IsNew) : AllNew (cs ++ [c]) := jobs_concat hcs hc

/-- The identities of the jobs that calls are to insert. -/
def insertedIds (cs : List Call) : List JobId := (cs.filterMap Call.job?).map Job.id

theorem insertedIds_append (cs ds : List Call) :
    insertedIds (cs ++ ds) = insertedIds cs ++ insertedIds ds := by
  simp [insertedIds]

namespace Store

/-- The store after calls, one after the other. -/
def after (s : Store) (cs : List Call) : Store := cs.foldl (fun s c => c.next s) s

@[simp] theorem after_nil (s : Store) : s.after [] = s := rfl

@[simp] theorem after_cons (s : Store) (c : Call) (cs : List Call) :
    s.after (c :: cs) = (c.next s).after cs := rfl

@[simp] theorem after_append (s : Store) (cs ds : List Call) :
    s.after (cs ++ ds) = (s.after cs).after ds := by
  simp [after]

end Store

/-! ## Changes of rows -/

/-- What a call makes of a row that stays. -/
inductive Change : Call → Row → Row → Prop where
  | claimed {name : String} {now : Instant} {r r' : Row}
      (open_ : r.isClaimable name (Stamp.ofInstant now)) (eq : r.claimed now = some r') :
      Change (.claim name now) r r'
  | finished {id : JobId} {attempt : UInt32} {o : Outcome} {now : Instant} {r r' : Row}
      (mine : r.id.is id.text) (held : r.isInAttempt attempt)
      (eq : r.finishedWith o now = some r') : Change (.finish id attempt o now) r r'
  | requeued {name : String} {startedBefore now : Instant} {r r' : Row}
      (stale : r.isStale name (Stamp.ofInstant startedBefore)) (eq : r.requeued now = some r') :
      Change (.requeue name startedBefore now) r r'

/-! ## What an operation leaves

One lemma for each operation: the store is as it was, or these are its rows. -/

namespace Store

theorem mem_of_earliest {rows : List Row} {r : Row} (h : earliest rows = some r) : r ∈ rows := by
  induction rows generalizing r with
  | nil => simp [earliest] at h
  | cons x rows ih =>
      cases hb : earliest rows with
      | none =>
          simp only [earliest, hb, Option.some.injEq] at h
          exact h ▸ List.mem_cons_self
      | some best =>
          simp only [earliest, hb] at h
          split at h <;> simp only [Option.some.injEq] at h <;> subst h
          · exact List.mem_cons_of_mem _ (ih hb)
          · exact List.mem_cons_self

/-- A claim takes a row that may be claimed. -/
theorem mem_of_claimable {s : Store} {name : String} {now : Instant} {r : Row}
    (h : s.claimable name now = some r) :
    r ∈ s.rows ∧ r.isClaimable name (Stamp.ofInstant now) := by
  simpa using mem_of_earliest h

theorem addRow_cases (s : Store) (op : Operation) (j : Job) :
    (∃ e, s.addRow op j = (.error e, s)) ∨
      s.hasId j.id.text = false ∧
        s.addRow op j = (.ok (), { s with rows := s.rows ++ [Row.ofJob j] }) := by
  unfold addRow
  split
  · exact .inl ⟨_, rfl⟩
  · next h => exact .inr ⟨by simpa using h, rfl⟩

theorem insert_cases (s : Store) (j : Job) :
    (∃ e, s.insert j = (.error e, s)) ∨
      s.hasId j.id.text = false ∧
        s.insert j = (.ok (), { s with rows := s.rows ++ [Row.ofJob j] }) := by
  unfold insert
  split
  · exact addRow_cases s .insert j
  · exact .inl ⟨_, rfl⟩

theorem insertIfAbsent_cases (s : Store) (j : Job) (t : Instant) :
    (∃ a, a ≠ .ok true ∧ s.insertIfAbsent j t = (a, s)) ∨
      s.hasId j.id.text = false ∧
        s.insertIfAbsent j t = (.ok true, { s with rows := s.rows ++ [Row.ofJob j] }) := by
  unfold insertIfAbsent
  split
  · split
    · exact .inl ⟨_, by simp, rfl⟩
    · rcases addRow_cases s .insertIfAbsent j with ⟨e, h⟩ | ⟨hid, h⟩
      · exact .inl ⟨.error e, by simp, by rw [h]⟩
      · exact .inr ⟨hid, by rw [h]⟩
  · exact .inl ⟨_, by simp, rfl⟩

theorem claim_cases (s : Store) (name : String) (now : Instant) :
    (∃ a, (∀ j, a ≠ .ok (some j)) ∧ s.claim name now = (a, s)) ∨
      ∃ r r', s.claimable name now = some r ∧ r.claimed now = some r' ∧
        s.claim name now = ((r'.toJob.mapError .row).map some, s.replace r') := by
  unfold claim
  split
  · split
    · exact .inl ⟨_, by simp, rfl⟩
    · next r hr =>
        split
        · exact .inl ⟨_, by simp, rfl⟩
        · split
          · exact .inl ⟨_, by simp, rfl⟩
          · next r' hr' => exact .inr ⟨r, r', hr, hr', rfl⟩
  · exact .inl ⟨_, by simp, rfl⟩

theorem finish_cases (s : Store) (id : JobId) (attempt : UInt32) (o : Outcome) (now : Instant) :
    (∃ a, a ≠ .ok true ∧ s.finish id attempt o now = (a, s)) ∨
      ∃ r r', r ∈ s.rows ∧ r.id.is id.text ∧ r.isInAttempt attempt ∧
        r.finishedWith o now = some r' ∧ s.finish id attempt o now = (.ok true, s.replace r') := by
  unfold finish
  split
  · split
    · exact .inl ⟨_, by simp, rfl⟩
    · next r hr =>
        have hmem := List.mem_of_find?_eq_some hr
        have hsome := List.find?_some hr
        rw [Bool.and_eq_true] at hsome
        split
        · exact .inl ⟨_, by simp, rfl⟩
        · next r' hr' => exact .inr ⟨r, r', hmem, hsome.1, hsome.2, hr', rfl⟩
  · exact .inl ⟨_, by simp, rfl⟩

/-- Items that are all replaced: each by what it is replaced with. -/
theorem mapM_eq_some {α : Type} {f : α → Option α} {l l' : List α} (h : l.mapM f = some l') :
    l' = l.map (fun a => (f a).getD a) ∧ ∀ a ∈ l, (f a).isSome := by
  induction l generalizing l' with
  | nil => simp_all
  | cons a l ih =>
      rw [List.mapM_cons] at h
      obtain ⟨b, hb, h⟩ := Option.bind_eq_some_iff.mp h
      obtain ⟨bs, hbs, h⟩ := Option.bind_eq_some_iff.mp h
      obtain ⟨hmap, hsome⟩ := ih hbs
      cases h
      exact ⟨by simp [hb, hmap], by simpa [hb] using hsome⟩

/-- Items that can all be replaced are. -/
theorem mapM_of_isSome {α : Type} {f : α → Option α} {l : List α} (h : ∀ a ∈ l, (f a).isSome) :
    l.mapM f = some (l.map fun a => (f a).getD a) := by
  induction l with
  | nil => rfl
  | cons a l ih =>
      obtain ⟨b, hb⟩ := Option.isSome_iff_exists.mp (h a List.mem_cons_self)
      rw [List.mapM_cons, hb, ih fun x hx => h x (List.mem_cons_of_mem _ hx), List.map_cons, hb]
      rfl

/-- Rows are replaced where their claims are taken back, and the others stay as they are. -/
theorem map_getD_requeued (rows : List Row) (name stamp : String) (now : Instant) :
    rows.map (fun r => (if r.isStale name stamp then r.requeued now else some r).getD r) =
      rows.map fun r => if r.isStale name stamp then (r.requeued now).getD r else r := by
  refine List.map_congr_left fun r _ => ?_
  split <;> rfl

theorem requeue_cases (s : Store) (name : String) (startedBefore now : Instant) :
    (∃ e, s.requeue name startedBefore now = (.error e, s)) ∨
      (∀ r ∈ s.rows, r.isStale name (Stamp.ofInstant startedBefore) → (r.requeued now).isSome) ∧
        s.requeue name startedBefore now =
          ((s.rows.filter (·.isStale name (Stamp.ofInstant startedBefore))).mapM requeuedId,
            { s with
              rows := s.rows.map fun r =>
                if r.isStale name (Stamp.ofInstant startedBefore) then (r.requeued now).getD r
                else r }) := by
  unfold requeue
  split
  · dsimp only
    split
    · exact .inl ⟨_, rfl⟩
    · next rows hrows =>
        obtain ⟨rfl, hsome⟩ := mapM_eq_some hrows
        refine .inr ⟨fun r hr hstale => by simpa [hstale] using hsome r hr, ?_⟩
        rw [map_getD_requeued]
  · exact .inl ⟨_, rfl⟩

theorem delete_cases (s : Store) (id : JobId) :
    (∃ e, s.delete id = (.error e, s)) ∨
      s.delete id =
        (.ok (s.hasId id.text), { s with rows := s.rows.filter fun r => !r.id.is id.text }) := by
  unfold delete
  split
  · exact .inr rfl
  · exact .inl ⟨_, rfl⟩

theorem deleteFinished_cases (s : Store) (cutoff : Instant) :
    (∃ e, s.deleteFinished cutoff = (.error e, s)) ∨
      s.deleteFinished cutoff =
        (.ok (s.rows.countP (·.finished.before (Stamp.ofInstant cutoff))),
          { s with rows := s.rows.filter fun r => !r.finished.before (Stamp.ofInstant cutoff) }) := by
  unfold deleteFinished
  split
  · exact .inr rfl
  · exact .inl ⟨_, rfl⟩

theorem get_snd (s : Store) (id : JobId) : (s.get id).2 = s := by
  unfold get fail
  split
  · split <;> rfl
  · rfl

theorem list_snd (s : Store) (name : String) (status : Option Status) :
    (s.list name status).2 = s := by
  unfold list fail
  split <;> rfl

end Store

end JobQueue
