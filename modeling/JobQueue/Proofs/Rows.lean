import JobQueue.Proofs.Changes
import JobQueue.Proofs.Identity
import Mathlib.Data.List.Find
import Mathlib.Data.List.Nodup

/-!
# JobQueue.Proofs.Rows

What a call does to all rows, and to the row of one job.

- `Keyed` says that a row is found by its identity: each has one, and no two have
  the same. Every call keeps it (`keyed_next`).
- A call adds a row, or changes some rows in their places, or removes some
  (`rewrite_next`). So rows after calls have what new rows have and changes keep
  (`rows_after`).
- `row?` is the row of an identity. `fate_next` says what can become of it.
-/

namespace JobQueue

/-- Rows that are found by their identities. -/
structure Keyed (rows : List Row) : Prop where
  /-- Each row has an identity. -/
  ids : ∀ r ∈ rows, ∃ id : JobId, r.id = .text id.text
  /-- No two rows have the same one. -/
  nodup : (rows.map Row.id).Nodup

/-- What a call makes of the rows. -/
inductive Rewrite (c : Call) (rows : List Row) : List Row → Prop where
  | added (j : Job) (hj : c.job? = some j) (absent : ∀ r ∈ rows, r.id ≠ .text j.id.text) :
      Rewrite c rows (rows ++ [Row.ofJob j])
  | changed (f : Row → Row) (h : ∀ r ∈ rows, f r = r ∨ Change c r (f r)) :
      Rewrite c rows (rows.map f)
  | removed : Rewrite c rows (rows.filter fun r => !c.removes r)

namespace Keyed

variable {rows rows' : List Row} {c : Call}

/-- Rows of one identity are one row. -/
theorem eq_of_id_eq (hk : Keyed rows) {r r' : Row} (hr : r ∈ rows) (hr' : r' ∈ rows)
    (h : r.id = r'.id) : r = r' :=
  List.inj_on_of_nodup_map hk.nodup hr hr' h

theorem map_id_of_changed {f : Row → Row} (h : ∀ r ∈ rows, f r = r ∨ Change c r (f r)) :
    (rows.map f).map Row.id = rows.map Row.id := by
  rw [List.map_map]
  refine List.map_congr_left fun r hr => ?_
  rcases h r hr with heq | hch
  · rw [Function.comp_apply, heq]
  · exact hch.id_eq

/-- Rows stay keyed. -/
theorem rewrite (hk : Keyed rows) (h : Rewrite c rows rows') : Keyed rows' := by
  cases h with
  | added j hj absent =>
      constructor
      · intro r hr
        rcases List.mem_append.mp hr with hr | hr
        · exact hk.ids r hr
        · rw [List.mem_singleton.mp hr]
          exact ⟨j.id, rfl⟩
      · rw [List.map_append, List.map_singleton, List.nodup_append]
        refine ⟨hk.nodup, List.pairwise_singleton _ _, fun x hx y hy heq => ?_⟩
        obtain ⟨r, hr, rfl⟩ := List.mem_map.mp hx
        exact absent r hr (heq.trans (List.mem_singleton.mp hy))
  | changed f hf =>
      constructor
      · intro r' hr'
        obtain ⟨r, hr, rfl⟩ := List.mem_map.mp hr'
        obtain ⟨id, hid⟩ := hk.ids r hr
        rcases hf r hr with heq | hch
        · exact ⟨id, by rw [heq, hid]⟩
        · exact ⟨id, by rw [hch.id_eq, hid]⟩
      · rw [map_id_of_changed hf]
        exact hk.nodup
  | removed =>
      exact ⟨fun r hr => hk.ids r (List.mem_filter.mp hr).1,
        hk.nodup.sublist (List.filter_sublist.map _)⟩

end Keyed

/-! ## All rows -/

theorem not_hasId {s : Store} {id : String} (h : s.hasId id = false) :
    ∀ r ∈ s.rows, r.id ≠ .text id := by
  intro r hr heq
  rw [Store.hasId, List.any_eq_false] at h
  exact h r hr (by simp [Column.is, heq])

/-- Nothing happens to the rows. -/
theorem rewrite_self (c : Call) (rows : List Row) : Rewrite c rows rows := by
  have h : Rewrite c rows (rows.map id) := .changed id fun _ _ => .inl rfl
  rwa [List.map_id] at h

/-- One row is replaced. -/
theorem rewrite_replace {c : Call} {s : Store} {r new : Row} (hk : Keyed s.rows) (hr : r ∈ s.rows)
    (hch : Change c r new) : Rewrite c s.rows (s.replace new).rows := by
  refine .changed _ fun x hx => ?_
  by_cases he : x.id = new.id
  · have hxr := hk.eq_of_id_eq hx hr (he.trans hch.id_eq)
    rw [if_pos (by simp [he]), hxr]
    exact .inr hch
  · rw [if_neg (by simp [he])]
    exact .inl rfl

/-- A call adds a row, or changes rows in their places, or removes rows. -/
theorem rewrite_next {c : Call} {s : Store} (hk : Keyed s.rows) :
    Rewrite c s.rows (c.next s).rows := by
  cases c with
  | insert j =>
      rcases s.insert_cases j with ⟨e, he⟩ | ⟨hid, he⟩ <;> simp only [Call.next, he]
      · exact rewrite_self _ _
      · exact .added j rfl (not_hasId hid)
  | insertIfAbsent j t =>
      rcases s.insertIfAbsent_cases j t with ⟨a, -, he⟩ | ⟨hid, he⟩ <;> simp only [Call.next, he]
      · exact rewrite_self _ _
      · exact .added j rfl (not_hasId hid)
  | claim name now =>
      rcases s.claim_cases name now with ⟨a, -, he⟩ | ⟨r, new, hr, hnew, he⟩ <;>
        simp only [Call.next, he]
      · exact rewrite_self _ _
      · obtain ⟨hmem, hopen⟩ := Store.mem_of_claimable hr
        exact rewrite_replace hk hmem (.claimed hopen hnew)
  | finish id attempt o now =>
      rcases s.finish_cases id attempt o now with ⟨a, -, he⟩ | ⟨r, new, hmem, hid, hheld, hnew, he⟩ <;>
        simp only [Call.next, he]
      · exact rewrite_self _ _
      · exact rewrite_replace hk hmem (.finished hid hheld hnew)
  | requeue name startedBefore now =>
      rcases s.requeue_cases name startedBefore now with ⟨e, he⟩ | ⟨hsome, he⟩ <;>
        simp only [Call.next, he]
      · exact rewrite_self _ _
      · refine .changed _ fun r hr => ?_
        by_cases hstale : r.isStale name (Stamp.ofInstant startedBefore)
        · obtain ⟨new, hnew⟩ := Option.isSome_iff_exists.mp (hsome r hr hstale)
          rw [if_pos hstale, hnew, Option.getD_some]
          exact .inr (.requeued hstale hnew)
        · rw [if_neg hstale]
          exact .inl rfl
  | get id =>
      rw [Call.next, Store.get_snd]
      exact rewrite_self _ _
  | list name status =>
      rw [Call.next, Store.list_snd]
      exact rewrite_self _ _
  | delete id =>
      rcases s.delete_cases id with ⟨e, he⟩ | he <;> simp only [Call.next, he]
      · exact rewrite_self _ _
      · exact .removed
  | deleteFinished cutoff =>
      rcases s.deleteFinished_cases cutoff with ⟨e, he⟩ | he <;> simp only [Call.next, he]
      · exact rewrite_self _ _
      · exact .removed
  | migrate => exact rewrite_self _ _

theorem keyed_empty : Keyed Store.empty.rows := ⟨fun _ h => absurd h List.not_mem_nil, .nil⟩

theorem keyed_next {c : Call} {s : Store} (hk : Keyed s.rows) : Keyed (c.next s).rows :=
  hk.rewrite (rewrite_next hk)

theorem keyed_after (cs : List Call) {s : Store} (hk : Keyed s.rows) : Keyed (s.after cs).rows := by
  induction cs generalizing s with
  | nil => exact hk
  | cons c cs ih => exact ih (keyed_next hk)

/-- What holds of the rows of the jobs that are inserted and is kept by every change holds
of every row after the calls. -/
theorem rows_after_of_inserted {P : Row → Prop} {cs : List Call}
    (hnew : ∀ c ∈ cs, ∀ j, c.job? = some j → P (Row.ofJob j))
    (hkeep : ∀ c r r', Change c r r' → P r → P r') {s : Store} (hk : Keyed s.rows)
    (hs : ∀ r ∈ s.rows, P r) : ∀ r ∈ (s.after cs).rows, P r := by
  induction cs generalizing s with
  | nil => exact hs
  | cons c cs ih =>
      have hrewrite := rewrite_next (c := c) hk
      refine ih (fun d hd => hnew d (List.mem_cons_of_mem _ hd)) (keyed_next hk) fun r hr => ?_
      generalize (c.next s).rows = rows' at hrewrite hr
      cases hrewrite with
      | added j hj absent =>
          rcases List.mem_append.mp hr with hr | hr
          · exact hs r hr
          · rw [List.mem_singleton.mp hr]
            exact hnew c List.mem_cons_self j hj
      | changed f hf =>
          obtain ⟨old, hold, rfl⟩ := List.mem_map.mp hr
          rcases hf old hold with heq | hch
          · rw [heq]
            exact hs old hold
          · exact hkeep c old _ hch (hs old hold)
      | removed => exact hs r (List.mem_filter.mp hr).1

/-- What holds of the rows of new jobs and is kept by every change holds of every
row after any calls. -/
theorem rows_after {P : Row → Prop} (hnew : ∀ j : Job, j.IsNew → P (Row.ofJob j))
    (hkeep : ∀ c r r', Change c r r' → P r → P r') {cs : List Call} (hcs : AllNew cs) {s : Store}
    (hk : Keyed s.rows) (hs : ∀ r ∈ s.rows, P r) : ∀ r ∈ (s.after cs).rows, P r :=
  rows_after_of_inserted (fun c hc j hj => hnew j (hcs c hc j hj)) hkeep hk hs

/-! ## The row of a job -/

/-- The row of an identity. -/
def rowOf? (rows : List Row) (id : JobId) : Option Row := rows.find? fun r => r.id.is id.text

/-- The row of an identity in a store. -/
def Store.row? (s : Store) (id : JobId) : Option Row := rowOf? s.rows id

theorem is_iff {c : Column} {t : String} : c.is t ↔ c = .text t := by simp [Column.is]

theorem rowOf?_eq_some_iff {rows : List Row} (hk : Keyed rows) {id : JobId} {r : Row} :
    rowOf? rows id = some r ↔ r ∈ rows ∧ r.id = .text id.text := by
  constructor
  · intro h
    exact ⟨List.mem_of_find?_eq_some h, is_iff.mp (List.find?_some (p := fun r : Row => r.id.is id.text) h)⟩
  · rintro ⟨hr, hid⟩
    have hsome : (rowOf? rows id).isSome := List.find?_isSome.mpr ⟨r, hr, is_iff.mpr hid⟩
    obtain ⟨x, hx⟩ := Option.isSome_iff_exists.mp hsome
    have hxid := is_iff.mp (List.find?_some (p := fun r : Row => r.id.is id.text) hx)
    rw [hx, hk.eq_of_id_eq (List.mem_of_find?_eq_some hx) hr (hxid.trans hid.symm)]

theorem rowOf?_eq_none_iff {rows : List Row} {id : JobId} :
    rowOf? rows id = none ↔ ∀ r ∈ rows, r.id ≠ .text id.text := by
  simp [rowOf?, is_iff]

/-- What becomes of the row of an identity in a call. -/
inductive Fate (c : Call) (id : JobId) : Option Row → Option Row → Prop where
  | same {o : Option Row} : Fate c id o o
  | inserted {j : Job} (hj : c.job? = some j) (hid : j.id = id) : Fate c id none (some (.ofJob j))
  | changed {r r' : Row} (h : Change c r r') : Fate c id (some r) (some r')
  | removed {r : Row} (h : c.removes r) : Fate c id (some r) none

/-- A row that is added is that of its own identity, and of no other. -/
theorem rowOf?_added {rows : List Row} {j : Job} (absent : ∀ r ∈ rows, r.id ≠ .text j.id.text)
    (id : JobId) :
    rowOf? (rows ++ [Row.ofJob j]) id = if j.id = id then some (Row.ofJob j) else rowOf? rows id := by
  have happend : rowOf? (rows ++ [Row.ofJob j]) id =
      (rowOf? rows id).or (rowOf? [Row.ofJob j] id) := List.find?_append
  by_cases hid : j.id = id
  · subst hid
    have hown : rowOf? [Row.ofJob j] j.id = some (Row.ofJob j) := by
      simp [rowOf?, Row.ofJob, Column.is]
    rw [happend, rowOf?_eq_none_iff.mpr absent, hown, if_pos rfl]
    rfl
  · have hother : rowOf? [Row.ofJob j] id = none := by
      simp [rowOf?, Row.ofJob, Column.is, JobId.text_inj, hid]
    rw [happend, hother, Option.or_none, if_neg hid]

theorem fate_of_added {c : Call} {rows : List Row} {j : Job} (hj : c.job? = some j)
    (absent : ∀ r ∈ rows, r.id ≠ .text j.id.text) (id : JobId) :
    Fate c id (rowOf? rows id) (rowOf? (rows ++ [Row.ofJob j]) id) := by
  rw [rowOf?_added absent]
  split
  · next hid =>
      rw [← hid, rowOf?_eq_none_iff.mpr absent]
      exact .inserted hj rfl
  · exact .same

/-- Where rows are changed and keep their identities, so is the row of an identity. -/
theorem rowOf?_map {rows : List Row} {f : Row → Row} (hf : ∀ r ∈ rows, (f r).id = r.id)
    (id : JobId) : rowOf? (rows.map f) id = (rowOf? rows id).map f := by
  rw [rowOf?, rowOf?, List.find?_map]
  congr 1
  exact List.find?_congr fun r hr => by rw [Function.comp_apply, hf r hr]

/-- Where rows are changed in their places, the row of an identity stays or is changed. -/
theorem fate_of_changed {c : Call} {rows : List Row} {f : Row → Row}
    (hf : ∀ r ∈ rows, f r = r ∨ Change c r (f r)) (id : JobId) :
    Fate c id (rowOf? rows id) (rowOf? (rows.map f) id) := by
  have hid : ∀ r ∈ rows, (f r).id = r.id := by
    intro r hr
    rcases hf r hr with heq | hch
    · rw [heq]
    · exact hch.id_eq
  rw [rowOf?_map hid]
  cases hrow : rowOf? rows id with
  | none => exact .same
  | some r =>
      rw [Option.map_some]
      rcases hf r (List.mem_of_find?_eq_some hrow) with heq | hch
      · rw [heq]
        exact .same
      · exact .changed hch

/-- Where rows are removed, the row of an identity stays or is removed. -/
theorem fate_of_removed {c : Call} {rows : List Row} (hk : Keyed rows) (id : JobId) :
    Fate c id (rowOf? rows id) (rowOf? (rows.filter fun r => !c.removes r) id) := by
  have hk' := hk.rewrite (Rewrite.removed (c := c))
  cases hrow : rowOf? rows id with
  | none =>
      have hnone : rowOf? (rows.filter fun r => !c.removes r) id = none := by
        rw [rowOf?_eq_none_iff] at hrow ⊢
        exact fun r hr => hrow r (List.mem_filter.mp hr).1
      rw [hnone]
      exact .same
  | some r =>
      obtain ⟨hr, hid⟩ := (rowOf?_eq_some_iff hk).mp hrow
      cases hrem : c.removes r with
      | false =>
          have hmem : r ∈ rows.filter fun r => !c.removes r :=
            List.mem_filter.mpr ⟨hr, by simp [hrem]⟩
          rw [(rowOf?_eq_some_iff hk').mpr ⟨hmem, hid⟩]
          exact .same
      | true =>
          have hnone : rowOf? (rows.filter fun r => !c.removes r) id = none := by
            rw [rowOf?_eq_none_iff]
            intro x hx hxid
            obtain ⟨hmem, hkept⟩ := List.mem_filter.mp hx
            rw [hk.eq_of_id_eq hmem hr (hxid.trans hid.symm), hrem] at hkept
            exact absurd hkept (by decide)
          rw [hnone]
          exact .removed hrem

theorem fate_of_rewrite {c : Call} {rows rows' : List Row} (hk : Keyed rows)
    (h : Rewrite c rows rows') (id : JobId) : Fate c id (rowOf? rows id) (rowOf? rows' id) := by
  cases h with
  | added j hj absent => exact fate_of_added hj absent id
  | changed f hf => exact fate_of_changed hf id
  | removed => exact fate_of_removed hk id

/-- What becomes of the row of an identity. -/
theorem fate_next {s : Store} (hk : Keyed s.rows) (c : Call) (id : JobId) :
    Fate c id (s.row? id) ((c.next s).row? id) :=
  fate_of_rewrite hk (rewrite_next hk) id

/-- A row that is replaced is the row of its identity, before and after. -/
theorem row?_replace {c : Call} {s : Store} {id : JobId} {r new : Row} (hk : Keyed s.rows)
    (hr : r ∈ s.rows) (hid : r.id = .text id.text) (hch : Change c r new) :
    s.row? id = some r ∧ (s.replace new).row? id = some new := by
  have hkeyed := hk.rewrite (rewrite_replace hk hr hch)
  have hmem : new ∈ (s.replace new).rows :=
    List.mem_map.mpr ⟨r, hr, if_pos (by rw [hch.id_eq]; exact beq_self_eq_true _)⟩
  exact ⟨(rowOf?_eq_some_iff hk).mpr ⟨hr, hid⟩,
    (rowOf?_eq_some_iff hkeyed).mpr ⟨hmem, hch.id_eq.trans hid⟩⟩

end JobQueue
