import JobQueue.Proofs.History
import JobQueue.Proofs.Pending

/-!
# JobQueue.Proofs.Locality

What a call that is made for one task reads and writes.

- `Call.run` is a call with its answer and the store after it, and `Step.isOf` says whether a
  call is made for the task of a name.
- Such a call is answered from the rows of the name alone (`Store.part`) and changes these
  rows as if they were all there is: it is local (`Call.IsLocal`, `isLocal_of_isOf`).
- A local call does on the rows of its name what it does on all (`run_part`), and leaves those
  of other names as they are (`part_next`).
-/

namespace JobQueue

/-! ## Answers -/

namespace Call

/-- What a call is answered with if it goes well. -/
def Result : Call → Type
  | .insert _ => Unit
  | .insertIfAbsent _ _ => Bool
  | .claim _ _ => Option Job
  | .finish _ _ _ _ => Bool
  | .requeue _ _ _ => List JobId
  | .get _ => Option Job
  | .list _ _ => List Job
  | .delete _ => Bool
  | .deleteFinished _ => Nat
  | .migrate _ => Unit

/-- The answer of a call, and the store after it. -/
def run : (c : Call) → Store → Store.Answer c.Result
  | .insert j, s => s.insert j
  | .insertIfAbsent j finishedAfter, s => s.insertIfAbsent j finishedAfter
  | .claim name now, s => s.claim name now
  | .finish id attempt o now, s => s.finish id attempt o now
  | .requeue name startedBefore now, s => s.requeue name startedBefore now
  | .get id, s => s.get id
  | .list name status, s => s.list name status
  | .delete id, s => s.delete id
  | .deleteFinished cutoff, s => s.deleteFinished cutoff
  | .migrate fill, s => s.migrate fill

theorem run_snd (c : Call) (s : Store) : (c.run s).2 = c.next s := by
  cases c <;> rfl

/-- Where there is no table, a call other than a migration fails. -/
theorem run_of_noTable {c : Call} (hc : ∀ fill, c ≠ .migrate fill) :
    ∃ a, ∀ s : Store, ¬ s.schema.hasJobs → c.run s = (a, s) := by
  cases c with
  | migrate fill => exact absurd rfl (hc fill)
  | _ => exact ⟨_, fun s h => if_neg h⟩

end Call

/-- Whether a step is made for the task of a name: it inserts a job of the name that is not
there yet, claims or takes back jobs of the name, or ends an attempt of one of them. -/
def Step.isOf (e : Step) (name : String) : Bool :=
  match e.call with
  | .insert j => j.name == name && !e.before.hasId j.id.text
  | .insertIfAbsent j _ => j.name == name && !e.before.hasId j.id.text
  | .claim n _ => n == name
  | .finish id _ _ _ => e.before.rows.any fun r => r.id.is id.text && r.name.is name
  | .requeue n _ _ => n == name
  | _ => false

/-! ## The rows of a name -/

namespace Store

/-- The store with the rows of a name alone. -/
def part (s : Store) (name : String) : Store :=
  { s with rows := s.rows.filter fun r => r.name.is name }

/-- No two rows have the same identity. There may be rows without one. -/
def Distinct (s : Store) : Prop := ((s.rows.map Row.id).filter fun i => !i.isNull).Nodup

/-- Change rows in their places. -/
def edit (s : Store) (f : Row → Row) : Store := { s with rows := s.rows.map f }

/-- Add the row of a job. -/
def plus (s : Store) (j : Job) : Store := { s with rows := s.rows ++ [Row.ofJob j] }

variable {s : Store} {name : String}

/-- Rows of one identity are one row. -/
theorem Distinct.eq_of_id_eq (h : s.Distinct) {r r' : Row} (hr : r ∈ s.rows) (hr' : r' ∈ s.rows)
    (hid : r.id = r'.id) (hnull : r.id.isNull = false) : r = r' := by
  rw [Distinct, List.filter_map] at h
  have hmem {x : Row} (hx : x ∈ s.rows) (hxid : x.id.isNull = false) :
      x ∈ s.rows.filter ((fun i => !i.isNull) ∘ Row.id) :=
    List.mem_filter.mpr ⟨hx, by rw [Function.comp_apply, hxid]; rfl⟩
  exact List.inj_on_of_nodup_map h (hmem hr hnull) (hmem hr' (hid ▸ hnull)) hid

end Store

theorem isNull_of_is {c : Column} {t : String} (h : c.is t) : c.isNull = false := by
  rw [is_iff.mp h]
  rfl

/-- Names of columns tell them apart. -/
theorem Column.not_is_of_ne {c : Column} {a b : String} (hab : a ≠ b) (h : c.is a) :
    c.is b = false := by
  rw [is_iff.mp h]
  simp [Column.is, hab]

/-! ## Calls for one task -/

/-- A row stays as it is, or is of a name and keeps its name and its identity. -/
def Row.Stays (name : String) (r r' : Row) : Prop :=
  r' = r ∨ r.name.is name ∧ r'.name = r.name ∧ r'.id = r.id

theorem Row.Stays.same {name : String} {r r' : Row} (h : r.Stays name r') :
    r'.name = r.name ∧ r'.id = r.id := by
  rcases h with rfl | ⟨-, hname, hid⟩
  · exact ⟨rfl, rfl⟩
  · exact ⟨hname, hid⟩

/-- A call for the task of a name changes rows of the name or adds one, and does the same where
these are all rows. -/
inductive Call.IsLocal (name : String) (s : Store) (c : Call) : Prop where
  | edits (a : Except DatabaseError c.Result) (f : Row → Row)
      (keeps : ∀ r ∈ s.rows, r.Stays name (f r))
      (whole : c.run s = (a, s.edit f)) (own : c.run (s.part name) = (a, (s.part name).edit f))
  | adds (a : Except DatabaseError c.Result) (j : Job) (hj : c.job? = some j)
      (hname : j.name = name) (absent : s.hasId j.id.text = false)
      (whole : c.run s = (a, s.plus j)) (own : c.run (s.part name) = (a, (s.part name).plus j))

namespace Call.IsLocal

variable {name : String} {s : Store} {c : Call}

/-- A call that changes nothing. -/
theorem of_same {a : Except DatabaseError c.Result} (whole : c.run s = (a, s))
    (own : c.run (s.part name) = (a, s.part name)) : c.IsLocal name s := by
  have hid (s : Store) : s.edit id = s := by rw [Store.edit, List.map_id]
  exact .edits a id (fun _ _ => .inl rfl) (by rw [whole, hid]) (by rw [own, hid])

theorem filter_edit {rows : List Row} {f : Row → Row} {p : Column → Bool}
    (h : ∀ r ∈ rows, (f r).name = r.name) :
    (rows.map f).filter (fun r => p r.name) = (rows.filter fun r => p r.name).map f := by
  rw [List.filter_map]
  congr 1
  exact List.filter_congr fun r hr => by rw [Function.comp_apply, h r hr]

/-- The rows of the name are answered from, and changed, as if they were all there is. -/
theorem run_part (h : c.IsLocal name s) :
    c.run (s.part name) = ((c.run s).1, (c.next s).part name) := by
  rw [← Call.run_snd]
  cases h with
  | edits a f keeps whole own =>
      have hfilter := filter_edit (p := (·.is name)) fun r hr => (keeps r hr).same.1
      rw [whole, own, Store.edit, Store.edit, Store.part, Store.part, hfilter]
  | adds a j hj hname absent whole own =>
      have hown : [Row.ofJob j].filter (fun r => r.name.is name) = [Row.ofJob j] :=
        List.filter_cons_of_pos (is_iff.mpr (congrArg Column.text hname))
      rw [whole, own, Store.plus, Store.plus, Store.part, Store.part, List.filter_append, hown]

/-- Rows of other names stay as they are. -/
theorem filter_next (h : c.IsLocal name s) {p : Column → Bool}
    (hp : ∀ k, k.is name → p k = false) :
    (c.next s).rows.filter (fun r => p r.name) = s.rows.filter fun r => p r.name := by
  rw [← Call.run_snd]
  cases h with
  | edits a f keeps whole own =>
      rw [whole, Store.edit, filter_edit fun r hr => (keeps r hr).same.1]
      refine (List.map_congr_left fun r hr => ?_).trans (List.map_id _)
      obtain ⟨hmem, hpr⟩ := List.mem_filter.mp hr
      rcases keeps r hmem with heq | ⟨hname, -⟩
      · exact heq
      · rw [hp _ hname] at hpr
        exact absurd hpr (by decide)
  | adds a j hj hname absent whole own =>
      have hother : p (Row.ofJob j).name = false :=
        hp _ (is_iff.mpr (congrArg Column.text hname))
      rw [whole, Store.plus, List.filter_append, List.filter_cons_of_neg (by simp [hother]),
        List.filter_nil, List.append_nil]

/-- The part of another name stays as it is. -/
theorem part_next (h : c.IsLocal name s) {other : String} (hne : name ≠ other) :
    (c.next s).part other = s.part other := by
  have hrows := h.filter_next (p := (·.is other)) fun _ => Column.not_is_of_ne hne
  have hschema : (c.next s).schema = s.schema := by
    rw [← Call.run_snd]
    cases h with
    | edits a f _ whole _ => rw [whole]; rfl
    | adds a j _ _ _ whole _ => rw [whole]; rfl
  rw [Store.part, Store.part, hrows, hschema]

/-- Identities stay, and at most that of an inserted job comes to them. -/
theorem ids_next (h : c.IsLocal name s) :
    (c.next s).rows.map Row.id = s.rows.map Row.id ∨
      ∃ j, c.job? = some j ∧ s.hasId j.id.text = false ∧ (c.next s).rows = s.rows ++ [.ofJob j] := by
  rw [← Call.run_snd]
  cases h with
  | edits a f keeps whole own =>
      rw [whole, Store.edit, List.map_map]
      exact .inl (List.map_congr_left fun r hr => (keeps r hr).same.2)
  | adds a j hj hname absent whole own =>
      rw [whole]
      exact .inr ⟨j, hj, absent, rfl⟩

theorem distinct_next (h : c.IsLocal name s) (hd : s.Distinct) : (c.next s).Distinct := by
  rcases h.ids_next with hids | ⟨j, -, habsent, hrows⟩
  · rwa [Store.Distinct, hids]
  · rw [Store.Distinct, hrows, List.map_append, List.filter_append]
    refine List.nodup_append.mpr ⟨hd, (List.nodup_singleton _).filter _, fun i hi k hk heq => ?_⟩
    obtain ⟨r, hr, rfl⟩ := List.mem_map.mp (List.mem_filter.mp hi).1
    have hk := (List.mem_filter.mp hk).1
    rw [List.map_singleton, List.mem_singleton] at hk
    exact not_hasId habsent r hr (heq.trans hk)

end Call.IsLocal

namespace Store

variable {s : Store} {name : String}

/-! ## Producers -/

theorem hasId_part {id : String} (h : s.hasId id = false) (name : String) :
    (s.part name).hasId id = false := by
  rw [hasId, List.any_eq_false] at h ⊢
  exact fun r hr => h r (List.mem_filter.mp hr).1

/-- Whether all jobs of a name and label are done shows in the rows of the name. -/
theorem free_part {name label stamp : String} :
    (s.part name).Free name label stamp ↔ s.Free name label stamp := by
  refine ⟨fun h r hr hname => h r (List.mem_filter.mpr ⟨hr, is_iff.mpr hname⟩) hname,
    fun h r hr => h r (List.mem_filter.mp hr).1⟩

theorem isLocal_insert {j : Job} (hjobs : s.schema.hasJobs) (hname : j.name = name)
    (hid : s.hasId j.id.text = false) : (Call.insert j).IsLocal name s :=
  .adds (.ok ()) j rfl hname hid (insert_of_absent hjobs hid)
    (insert_of_absent hjobs (hasId_part hid name))

theorem isLocal_insertIfAbsent {j : Job} (hjobs : s.schema.hasJobs) (hname : j.name = name)
    (hid : s.hasId j.id.text = false) (t : Instant) :
    (Call.insertIfAbsent j t).IsLocal name s := by
  subst hname
  by_cases hfree : s.Free j.name j.label (Stamp.ofInstant t)
  · exact .adds (.ok true) j rfl rfl hid (insertIfAbsent_of_free hjobs hid hfree)
      (insertIfAbsent_of_free hjobs (hasId_part hid _) (free_part.mpr hfree))
  · exact .of_same (insertIfAbsent_of_not_free hjobs hfree)
      (insertIfAbsent_of_not_free (s := s.part j.name) hjobs (mt free_part.mp hfree))

/-! ## Workers -/

/-- What a claim takes is found in the rows of its name. -/
theorem claimable_part (s : Store) (name : String) (now : Instant) :
    (s.part name).claimable name now = s.claimable name now := by
  rw [claimable, claimable, part, List.filter_filter]
  congr 1
  refine List.filter_congr fun r _ => ?_
  rw [Row.isClaimable]
  cases r.name.is name <;> simp

/-- A row is put in its place, which no other row has. -/
theorem stays_replace (hd : s.Distinct) {c : Call} {r r' : Row} (hr : r ∈ s.rows)
    (hname : r.name.is name) (hnull : r.id.isNull = false) (hch : Change c r r') :
    ∀ x ∈ s.rows, x.Stays name (if x.id == r'.id then r' else x) := by
  intro x hx
  by_cases hid : x.id = r'.id
  · have hxr := hd.eq_of_id_eq hr hx (hch.id_eq.symm.trans hid.symm) hnull
    rw [if_pos (beq_iff_eq.mpr hid), ← hxr]
    exact .inr ⟨hname, hch.same.2.1, hch.id_eq⟩
  · rw [if_neg (by simpa using hid)]
    exact .inl rfl

theorem isLocal_claim (hd : s.Distinct) (hjobs : s.schema.hasJobs) (name : String)
    (now : Instant) : (Call.claim name now).IsLocal name s := by
  have hpart := claimable_part s name now
  cases hr : s.claimable name now with
  | none =>
      exact .of_same (claim_of_none hjobs hr)
        (claim_of_none (s := s.part name) hjobs (hpart.trans hr))
  | some r =>
      have hr' := hpart.trans hr
      obtain ⟨hmem, hopen⟩ := mem_of_claimable hr
      obtain ⟨-, hname⟩ := List.mem_filter.mp (mem_of_claimable hr').1
      cases hnull : r.id.isNull with
      | true =>
          exact .of_same (claim_of_null hjobs hr hnull)
            (claim_of_null (s := s.part name) hjobs hr' hnull)
      | false =>
          cases hnew : r.claimed now with
          | none =>
              exact .of_same (claim_of_malformed hjobs hr hnull hnew)
                (claim_of_malformed (s := s.part name) hjobs hr' hnull hnew)
          | some new =>
              exact .edits _ _ (stays_replace hd hmem hname hnull (.claimed hopen hnew))
                (claim_of_claimable hjobs hr hnull hnew) (claim_of_claimable hjobs hr' hnull hnew)

/-- The row in an attempt is found in the rows of the name of its job. -/
theorem find?_part (hd : s.Distinct) {id : JobId} {n : UInt32}
    (h : s.rows.any fun r => r.id.is id.text && r.name.is name) :
    (s.part name).rows.find? (fun r => r.id.is id.text && r.isInAttempt n) =
      s.rows.find? fun r => r.id.is id.text && r.isInAttempt n := by
  obtain ⟨r, hr, hrid⟩ := List.any_eq_true.mp h
  rw [Bool.and_eq_true] at hrid
  rw [part, List.find?_filter]
  refine List.find?_congr fun x hx => ?_
  cases hxid : x.id.is id.text with
  | false => simp
  | true =>
      have heq := (is_iff.mp hrid.1).trans (is_iff.mp hxid).symm
      rw [← hd.eq_of_id_eq hr hx heq (isNull_of_is hrid.1), hrid.2]
      simp

theorem isLocal_finish (hd : s.Distinct) (hjobs : s.schema.hasJobs) {id : JobId}
    (h : s.rows.any fun r => r.id.is id.text && r.name.is name) (n : UInt32) (o : Outcome)
    (now : Instant) : (Call.finish id n o now).IsLocal name s := by
  have hpart := find?_part hd h (n := n)
  cases hr : s.rows.find? fun r => r.id.is id.text && r.isInAttempt n with
  | none =>
      exact .of_same (finish_of_none hjobs hr)
        (finish_of_none (s := s.part name) hjobs (hpart.trans hr))
  | some r =>
      have hr' := hpart.trans hr
      obtain ⟨hmem, hname⟩ := List.mem_filter.mp (List.mem_of_find?_eq_some hr')
      have hfound := List.find?_some hr
      rw [Bool.and_eq_true] at hfound
      cases hnew : r.finishedWith o now with
      | none =>
          exact .of_same (finish_of_malformed hjobs hr hnew)
            (finish_of_malformed (s := s.part name) hjobs hr' hnew)
      | some new =>
          exact .edits _ _
            (stays_replace hd hmem hname (isNull_of_is hfound.1)
              (.finished hfound.1 hfound.2 hnew))
            (finish_of_held hjobs hr hnew) (finish_of_held hjobs hr' hnew)

/-! ## The reaper -/

theorem isLocal_requeue (hjobs : s.schema.hasJobs) (name : String)
    (startedBefore now : Instant) : (Call.requeue name startedBefore now).IsLocal name s := by
  have hown {r : Row} (hstale : r.isStale name (Stamp.ofInstant startedBefore)) :
      r.name.is name := by
    rw [Row.isStale, Bool.and_eq_true, Bool.and_eq_true] at hstale
    exact hstale.1.1
  by_cases hall : ∀ r ∈ s.rows, r.isStale name (Stamp.ofInstant startedBefore) →
      (r.requeued now).isSome
  · have hfilter : (s.part name).rows.filter (·.isStale name (Stamp.ofInstant startedBefore)) =
        s.rows.filter (·.isStale name (Stamp.ofInstant startedBefore)) := by
      rw [part, List.filter_filter]
      refine List.filter_congr fun r _ => ?_
      rw [Row.isStale]
      cases r.name.is name <;> simp
    have hwhole := requeue_of_stale hjobs hall
    have hpart := requeue_of_stale (s := s.part name) hjobs
      fun r hr => hall r (List.mem_filter.mp hr).1
    rw [hfilter] at hpart
    refine .edits _ _ (fun r hr => ?_) hwhole hpart
    by_cases hstale : r.isStale name (Stamp.ofInstant startedBefore)
    · obtain ⟨new, hnew⟩ := Option.isSome_iff_exists.mp (hall r hr hstale)
      have hch : Change (.requeue name startedBefore now) r new := .requeued hstale hnew
      rw [if_pos hstale, hnew]
      exact .inr ⟨hown hstale, hch.same.2.1, hch.id_eq⟩
    · rw [if_neg hstale]
      exact .inl rfl
  · push Not at hall
    obtain ⟨r, hr, hstale, hnew⟩ := hall
    rw [ne_eq, Option.not_isSome_iff_eq_none] at hnew
    exact .of_same (requeue_of_malformed hjobs hr hstale hnew)
      (requeue_of_malformed (s := s.part name) hjobs (List.mem_filter.mpr ⟨hr, hown hstale⟩)
        hstale hnew)

end Store

/-! ## Calls of a task -/

/-- A call for a task is answered from its rows and changes these. -/
theorem isLocal_of_isOf {s : Store} (hd : s.Distinct) {c : Call} {name : String}
    (h : (Step.mk s c).isOf name) : c.IsLocal name s := by
  by_cases hjobs : s.schema.hasJobs
  case neg =>
    obtain ⟨a, ha⟩ := Call.run_of_noTable (c := c) (fun _ hc => by subst hc; cases h)
    exact .of_same (ha s hjobs) (ha (s.part name) hjobs)
  cases c with
  | insert j =>
      obtain ⟨hname, hid⟩ : j.name = name ∧ s.hasId j.id.text = false := by
        simpa [Step.isOf] using h
      exact Store.isLocal_insert hjobs hname hid
  | insertIfAbsent j t =>
      obtain ⟨hname, hid⟩ : j.name = name ∧ s.hasId j.id.text = false := by
        simpa [Step.isOf] using h
      exact Store.isLocal_insertIfAbsent hjobs hname hid t
  | claim n now =>
      obtain rfl : n = name := by simpa [Step.isOf] using h
      exact Store.isLocal_claim hd hjobs n now
  | finish id n o now => exact Store.isLocal_finish hd hjobs h n o now
  | requeue n startedBefore now =>
      obtain rfl : n = name := by simpa [Step.isOf] using h
      exact Store.isLocal_requeue hjobs n startedBefore now
  | get | list | delete | deleteFinished | migrate => exact absurd h (by simp [Step.isOf])

end JobQueue
