import JobQueue.Proofs.Progress

/-!
# JobQueue.Proofs.Pending

Jobs of one name and label, one at a time.

- A job is inserted if absent exactly if each job of its name and label was done by some
  instant (`insertIfAbsent_of_free`, `insertIfAbsent_of_not_free`).
- A job that is done stays done (`Change.finished_of_null`). So where jobs of a name and
  label are inserted only if absent, there is never more than one that is not done
  (`pending_after`).
-/

namespace JobQueue

/-! ## Insertion -/

/-- All jobs of a name and label were done by the instant of a stamp. -/
def Store.Free (s : Store) (name label stamp : String) : Prop :=
  ∀ r ∈ s.rows, r.name = .text name → r.label = .text label →
    ∃ finished, r.finished = .text finished ∧ finished ≤ stamp

/-- A row that keeps no job away is of another name or label, or was done in time. -/
theorem Row.isPending_eq_false_iff {r : Row} {name label stamp : String} :
    r.isPending name label stamp = false ↔ (r.name = .text name → r.label = .text label →
      ∃ finished, r.finished = .text finished ∧ finished ≤ stamp) := by
  have hdone : (r.finished.isNull || r.finished.after stamp) = false ↔
      ∃ finished, r.finished = .text finished ∧ finished ≤ stamp := by
    cases r.finished with
    | null => simp [Column.isNull]
    | text f =>
        have hnull : (Column.text f).isNull = false := rfl
        rw [hnull, Bool.false_or, Column.after_text, decide_eq_false_iff_not, String.not_lt]
        simp only [Column.text.injEq, exists_eq_left']
    | blob bytes => simp [Column.isNull, Column.after, Column.lt]
  rw [isPending, Bool.and_eq_false_imp, hdone, Bool.and_eq_true, is_iff, is_iff, and_imp]

namespace Store

variable {s : Store} {j : Job} {t : Instant}

theorem any_isPending_iff {name label stamp : String} :
    s.rows.any (·.isPending name label stamp) = false ↔ s.Free name label stamp := by
  rw [List.any_eq_false]
  exact forall₂_congr fun r _ => by rw [Bool.not_eq_true, Row.isPending_eq_false_iff]

/-- A job that nothing keeps away is inserted. -/
theorem insertIfAbsent_of_free (hjobs : s.schema.hasJobs) (hid : s.hasId j.id.text = false)
    (h : s.Free j.name j.label (Stamp.ofInstant t)) :
    s.insertIfAbsent j t = (.ok true, { s with rows := s.rows ++ [Row.ofJob j] }) := by
  rw [insertIfAbsent, if_pos hjobs, any_isPending_iff.mpr h, if_neg (by decide), addRow,
    if_neg (by simp [hid])]

/-- A job that another one keeps away is not. -/
theorem insertIfAbsent_of_not_free (hjobs : s.schema.hasJobs)
    (h : ¬ s.Free j.name j.label (Stamp.ofInstant t)) :
    s.insertIfAbsent j t = (.ok false, s) := by
  rw [← any_isPending_iff, Bool.not_eq_false] at h
  rw [insertIfAbsent, if_pos hjobs, if_pos h]

/-- A job is inserted only if nothing keeps it away. -/
theorem free_of_inserted (h : (s.insertIfAbsent j t).1 = .ok true) :
    s.Free j.name j.label (Stamp.ofInstant t) := by
  by_cases hjobs : s.schema.hasJobs
  · refine Classical.not_not.mp fun hfree => ?_
    rw [insertIfAbsent_of_not_free hjobs hfree] at h
    cases h
  · rw [insertIfAbsent, if_neg hjobs] at h
    cases h

end Store

/-! ## Jobs that are not done -/

/-- Whether a row is of a name and label. -/
def Row.isOf (r : Row) (name label : String) : Bool := r.name.is name && r.label.is label

/-- How many jobs of a name and label are not done. -/
def Store.pending (s : Store) (name label : String) : Nat :=
  s.rows.countP fun r => r.isOf name label && r.finished.isNull

/-- Calls that insert jobs of a name and label only if absent. -/
def InsertedIfAbsent (name label : String) (cs : List Call) : Prop :=
  ∀ j, .insert j ∈ cs → ¬ (j.name = name ∧ j.label = label)

/-- A job that is done stays done. -/
theorem Change.finished_of_null {c : Call} {r r' : Row} (h : Change c r r')
    (hnull : r'.finished = .null) : r.finished = .null := by
  obtain ⟨e, he⟩ := h.enters
  have hfinished := he.finished
  rw [hnull] at hfinished
  split at hfinished
  · cases hfinished
  · exact hfinished.symm

/-- A row of a name and label that is not done. -/
theorem Row.isOf_and_isNull {r : Row} {name label : String} :
    (r.isOf name label && r.finished.isNull) ↔
      r.name = .text name ∧ r.label = .text label ∧ r.finished = .null := by
  have hnull : r.finished.isNull ↔ r.finished = .null := by
    cases r.finished <;> simp [Column.isNull]
  rw [isOf, Bool.and_eq_true, Bool.and_eq_true, is_iff, is_iff, hnull, and_assoc]

section

variable {name label : String} {c : Call} {s : Store}

/-- A call that inserts nothing leaves no more jobs that are not done. -/
theorem pending_le_of_rewrite {rows rows' : List Row} (h : Rewrite c rows rows')
    (hc : c.job? = none) :
    rows'.countP (fun r => r.isOf name label && r.finished.isNull) ≤
      rows.countP fun r => r.isOf name label && r.finished.isNull := by
  cases h with
  | added j hj _ =>
      rw [hc] at hj
      cases hj
  | changed f hf =>
      rw [List.countP_map]
      refine List.countP_mono_left fun r hr hpending => ?_
      rcases hf r hr with heq | hch
      · rwa [Function.comp_apply, heq] at hpending
      · obtain ⟨hname, hlabel, hnull⟩ := Row.isOf_and_isNull.mp hpending
        obtain ⟨-, hsame, hsame', -, -⟩ := hch.same
        exact Row.isOf_and_isNull.mpr
          ⟨hsame.symm.trans hname, hsame'.symm.trans hlabel, hch.finished_of_null hnull⟩
  | removed => exact List.filter_sublist.countP_le

theorem pending_added (s : Store) (j : Job) :
    Store.pending { s with rows := s.rows ++ [Row.ofJob j] } name label =
      s.pending name label +
        if (Row.ofJob j).isOf name label && (Row.ofJob j).finished.isNull then 1 else 0 := by
  rw [Store.pending, List.countP_append, List.countP_singleton, Store.pending]

/-- No call leaves two jobs that are not done, if it inserts one only if absent. -/
theorem pending_next (hk : Keyed s.rows)
    (hc : ∀ j, c = .insert j → ¬ (j.name = name ∧ j.label = label))
    (h : s.pending name label ≤ 1) : (c.next s).pending name label ≤ 1 := by
  have hof {j : Job} (hj : (Row.ofJob j).isOf name label && (Row.ofJob j).finished.isNull) :
      j.name = name ∧ j.label = label := by
    obtain ⟨hname, hlabel, -⟩ := Row.isOf_and_isNull.mp hj
    exact ⟨Column.text.inj hname, Column.text.inj hlabel⟩
  cases c with
  | insert j =>
      rcases s.insert_cases j with ⟨e, he⟩ | ⟨-, he⟩ <;> rw [Call.next, he]
      · exact h
      · rw [pending_added, if_neg fun hj => hc j rfl (hof hj)]
        exact h
  | insertIfAbsent j t =>
      rcases s.insertIfAbsent_cases j t with ⟨a, -, he⟩ | ⟨-, he⟩ <;> rw [Call.next, he]
      · exact h
      · rw [pending_added]
        split
        · next hj =>
            -- the job was inserted because all others of its name and label are done
            obtain ⟨rfl, rfl⟩ := hof hj
            have hfree := Store.free_of_inserted (congrArg Prod.fst he)
            have hzero : s.pending j.name j.label = 0 := by
              refine List.countP_eq_zero.mpr fun r hr hpending => ?_
              obtain ⟨hname, hlabel, hnull⟩ := Row.isOf_and_isNull.mp hpending
              obtain ⟨finished, hfinished, -⟩ := hfree r hr hname hlabel
              rw [hnull] at hfinished
              cases hfinished
            omega
        · exact h
  | _ => exact Nat.le_trans (pending_le_of_rewrite (rewrite_next hk) rfl) h

theorem pending_after {cs : List Call} (hcs : InsertedIfAbsent name label cs)
    (hk : Keyed s.rows) (h : s.pending name label ≤ 1) : (s.after cs).pending name label ≤ 1 := by
  induction cs generalizing s with
  | nil => exact h
  | cons c cs ih =>
      refine ih (fun j hj => hcs j (List.mem_cons_of_mem _ hj)) (keyed_next hk)
        (pending_next hk (fun j hj => hcs j ?_) h)
      rw [hj]
      exact List.mem_cons_self

end

/-! ## One at a time -/

/-- Whatever is called, at most one job of a name and label that are inserted only if absent
is not done; and a job of a new identity is inserted if absent exactly if all others of its
name and label were done in time. -/
theorem one_at_a_time (cs : List Call) :
    (∀ name label, InsertedIfAbsent name label cs →
      (Store.empty.after cs).pending name label ≤ 1) ∧
    ∀ (j : Job) (t : Instant), (Store.empty.after cs).row? j.id = none →
      ((Store.empty.after cs).Free j.name j.label (Stamp.ofInstant t) →
        (Store.empty.after cs).insertIfAbsent j t = (.ok true, { Store.empty.after cs with
          rows := (Store.empty.after cs).rows ++ [Row.ofJob j] })) ∧
      (¬ (Store.empty.after cs).Free j.name j.label (Stamp.ofInstant t) →
        (Store.empty.after cs).insertIfAbsent j t = (.ok false, Store.empty.after cs)) := by
  refine ⟨fun name label h => pending_after h keyed_empty (Nat.zero_le 1), fun j t hid => ?_⟩
  have habsent : (Store.empty.after cs).hasId j.id.text = false := by
    rw [Store.hasId, List.any_eq_false]
    exact fun r hr his => rowOf?_eq_none_iff.mp hid r hr (is_iff.mp his)
  exact ⟨fun h => Store.insertIfAbsent_of_free (hasJobs_after cs) habsent h,
    fun h => Store.insertIfAbsent_of_not_free (hasJobs_after cs) h⟩

/-- A job that is alone is inserted if absent. -/
theorem after_insertIfAbsent (j : Job) (t : Instant) :
    Store.empty.after [.insertIfAbsent j t] = ⟨.current, [Row.ofJob j]⟩ := by
  rw [Store.after_cons, Store.after_nil, Call.next,
    Store.insertIfAbsent_of_free Schema.hasJobs_current rfl fun _ h => absurd h List.not_mem_nil]
  rfl

/-- For instance of the sample, which keeps another job of its name and label away. -/
theorem one_at_a_time_sample :
    (Store.empty.after [.insertIfAbsent .sample .epoch]).pending "mail" "" ≤ 1 ∧
      (Store.empty.after [.insertIfAbsent .sample .epoch]).insertIfAbsent
          (.new (.numbered 1) "mail" "" .null .epoch .epoch) .latest =
        (.ok false, Store.empty.after [.insertIfAbsent .sample .epoch]) := by
  obtain ⟨hpending, hinsert⟩ := one_at_a_time [.insertIfAbsent .sample .epoch]
  refine ⟨hpending "mail" "" (by simp [InsertedIfAbsent]), (hinsert _ _ ?_).2 fun hfree => ?_⟩
  · rw [after_insertIfAbsent]
    refine rowOf?_eq_none_iff.mpr fun r hr hid => ?_
    rw [List.mem_singleton.mp hr] at hid
    exact absurd (JobId.text_inj.mp (Column.text.inj hid)) (by decide)
  · rw [after_insertIfAbsent] at hfree
    obtain ⟨finished, hfinished, -⟩ := hfree (Row.ofJob .sample) (List.mem_singleton_self _) rfl rfl
    cases hfinished

end JobQueue
