import JobQueue.Proofs.Locality
import Mathlib.Data.List.Count

/-!
# JobQueue.Proofs.Separation

Tasks do not get in each other's way.

- Calls for two tasks can change places: their answers stay (`run_fst_next`), and so do the
  rows (`rows_comm`).
- What a task is answered in a run of calls for any tasks, and what becomes of its rows, is
  what it would be if its calls were all there is (`replies_eq`).
-/

namespace JobQueue

/-- A call and its answer. -/
abbrev Reply := Σ c : Call, Except DatabaseError c.Result

/-- The call of a step with its answer. -/
def Step.reply (e : Step) : Reply := ⟨e.call, (e.call.run e.before).1⟩

/-- The steps of a run that are made for the task of a name. -/
def Store.stepsOf (s : Store) (cs : List Call) (name : String) : List Step :=
  (s.history cs).filter (·.isOf name)

section

variable {s : Store} {a b : String} {c d : Call}

/-! ## Two calls -/

/-- A call for a task is one for it whatever is called for another task before it, as long as
this does not take the identity of its job. -/
theorem isOf_next (hc : c.IsLocal a s) (hab : a ≠ b)
    (hids : ∀ i, c.job? = some i → ∀ j, d.job? = some j → i.id ≠ j.id)
    (hd : (Step.mk s d).isOf b) : (Step.mk (c.next s) d).isOf b := by
  have habsent {j : Job} (hj : d.job? = some j) (hid : s.hasId j.id.text = false) :
      (c.next s).hasId j.id.text = false := by
    rw [Store.hasId, List.any_eq_false] at hid ⊢
    rcases hc.ids_next with hsame | ⟨i, hi, -, hrows⟩
    · intro r hr
      obtain ⟨x, hx, hxid⟩ := List.mem_map.mp (hsame ▸ List.mem_map_of_mem (f := Row.id) hr)
      rw [← hxid]
      exact hid x hx
    · intro r hr his
      rcases List.mem_append.mp (hrows ▸ hr) with hr | hr
      · exact hid r hr his
      · rw [List.mem_singleton.mp hr] at his
        exact hids i hi j hj (JobId.text_inj.mp (Column.text.inj (is_iff.mp his)))
  cases d with
  | insert j =>
      simp only [Step.isOf, Bool.and_eq_true, Bool.not_eq_true'] at hd ⊢
      exact ⟨hd.1, habsent rfl hd.2⟩
  | insertIfAbsent j t =>
      simp only [Step.isOf, Bool.and_eq_true, Bool.not_eq_true'] at hd ⊢
      exact ⟨hd.1, habsent rfl hd.2⟩
  | finish id n o now =>
      obtain ⟨r, hr, hrid⟩ := List.any_eq_true.mp hd
      rw [Bool.and_eq_true] at hrid
      have hmem : r ∈ ((c.next s).part b).rows := by
        rw [hc.part_next hab]
        exact List.mem_filter.mpr ⟨hr, hrid.2⟩
      exact List.any_eq_true.mpr ⟨r, (List.mem_filter.mp hmem).1, Bool.and_eq_true_iff.mpr hrid⟩
  | claim | requeue => exact hd
  | get | list | delete | deleteFinished | migrate => exact absurd hd (by simp [Step.isOf])

/-- What a call for a task is answered does not depend on a call for another task. -/
theorem run_fst_next (hc : c.IsLocal a s) (hab : a ≠ b) (hd : d.IsLocal b s)
    (hd' : d.IsLocal b (c.next s)) :
    (d.run (c.next s)).1 = (d.run s).1 ∧
      (d.next (c.next s)).part b = (d.next s).part b := by
  have hsame := hd'.run_part
  rw [hc.part_next hab, hd.run_part, Prod.mk.injEq] at hsame
  exact ⟨hsame.1.symm, hsame.2.symm⟩

/-- Rows are the same, in another order, if those of each name are. -/
theorem perm_of_filter {rows rows' : List Row}
    (h : ∀ k : Column, rows.filter (fun r => r.name == k) = rows'.filter fun r => r.name == k) :
    rows.Perm rows' := by
  refine List.perm_iff_count.mpr fun r => ?_
  have hcount (l : List Row) : (l.filter fun x => x.name == r.name).count r = l.count r :=
    List.count_filter (beq_self_eq_true r.name)
  rw [← hcount rows, h, hcount]

/-- Two calls for different tasks leave the same rows in either order. -/
theorem rows_comm (hab : a ≠ b) (hc : c.IsLocal a s) (hd : d.IsLocal b s)
    (hc' : c.IsLocal a (d.next s)) (hd' : d.IsLocal b (c.next s)) :
    (d.next (c.next s)).rows.Perm (c.next (d.next s)).rows := by
  refine perm_of_filter fun k => ?_
  by_cases hka : k = .text a
  · subst hka
    have h := congrArg Store.rows (hd'.part_next hab.symm)
    exact h.trans (congrArg Store.rows (run_fst_next hd hab.symm hc hc').2.symm)
  by_cases hkb : k = .text b
  · subst hkb
    have h := congrArg Store.rows (run_fst_next hc hab hd hd').2
    exact h.trans (congrArg Store.rows (hc'.part_next hab).symm)
  -- rows of a third name are touched by neither call
  have hother {name : String} (hk : k ≠ .text name) (x : Column) (hx : x.is name) :
      (x == k) = false := by
    rw [is_iff.mp hx, beq_eq_false_iff_ne]
    exact hk.symm
  rw [hd'.filter_next (p := (· == k)) (hother hkb), hc.filter_next (p := (· == k)) (hother hka),
    hc'.filter_next (p := (· == k)) (hother hka), hd.filter_next (p := (· == k)) (hother hkb)]

/-! ## Runs -/

/-- What a task is answered in a run, and what becomes of its rows, is what it would be if it
ran alone on its rows. -/
theorem replies_eq (hs : s.Distinct) {cs : List Call} (name : String)
    (h : ∀ e ∈ s.history cs, ∃ n, e.isOf n) :
    (s.stepsOf cs name).map Step.reply =
        ((s.part name).history ((s.stepsOf cs name).map Step.call)).map Step.reply ∧
      (s.after cs).part name = (s.part name).after ((s.stepsOf cs name).map Step.call) := by
  -- by induction on the run, from its first call
  induction cs generalizing s with
  | nil => exact ⟨rfl, rfl⟩
  | cons c cs ih =>
      obtain ⟨n, hn⟩ := h ⟨s, c⟩ List.mem_cons_self
      have hlocal := isLocal_of_isOf hs hn
      obtain ⟨hreplies, hpart⟩ := ih (hlocal.distinct_next hs) fun e he =>
        h e (List.mem_cons_of_mem _ he)
      by_cases hown : (Step.mk s c).isOf name
      · have hsteps : s.stepsOf (c :: cs) name = ⟨s, c⟩ :: (c.next s).stepsOf cs name :=
          List.filter_cons_of_pos hown
        have hrun := (isLocal_of_isOf hs hown).run_part
        have hnext : c.next (s.part name) = (c.next s).part name := by
          rw [← Call.run_snd, hrun]
        rw [hsteps, List.map_cons, List.map_cons, Store.history_cons, List.map_cons,
          Store.after_cons, Store.after_cons, hnext, ← hreplies, ← hpart, Step.reply,
          Step.reply, hrun]
        exact ⟨rfl, rfl⟩
      · have hsteps : s.stepsOf (c :: cs) name = (c.next s).stepsOf cs name :=
          List.filter_cons_of_neg hown
        have hne : n ≠ name := fun heq => hown (heq ▸ hn)
        rw [hsteps, Store.after_cons, hreplies, hpart, hlocal.part_next hne]
        exact ⟨rfl, rfl⟩

end

/-! ## Tasks -/

/-- Tasks do not get in each other's way. A call for one task and a call for another one can
change places: each is answered the same, and the rows are the same. So in a run, what a task
is answered, and its rows at the end, are those of its own calls on its own rows. -/
theorem tasks_apart {s : Store} (hs : s.Distinct) :
    (∀ (a b : String) (c d : Call), a ≠ b → (Step.mk s c).isOf a → (Step.mk s d).isOf b →
      (∀ i, c.job? = some i → ∀ j, d.job? = some j → i.id ≠ j.id) →
        (c.run (d.next s)).1 = (c.run s).1 ∧ (d.run (c.next s)).1 = (d.run s).1 ∧
          (d.next (c.next s)).rows.Perm (c.next (d.next s)).rows) ∧
    ∀ (cs : List Call) (name : String), (∀ e ∈ s.history cs, ∃ n, e.isOf n) →
      (s.stepsOf cs name).map Step.reply =
          ((s.part name).history ((s.stepsOf cs name).map Step.call)).map Step.reply ∧
        (s.after cs).part name = (s.part name).after ((s.stepsOf cs name).map Step.call) := by
  refine ⟨fun a b c d hab hc hd hids => ?_, fun cs name h => replies_eq hs name h⟩
  have hcs := isLocal_of_isOf hs hc
  have hds := isLocal_of_isOf hs hd
  have hc' := isLocal_of_isOf (hds.distinct_next hs)
    (isOf_next hds hab.symm (fun j hj i hi => (hids i hi j hj).symm) hc)
  have hd' := isLocal_of_isOf (hcs.distinct_next hs) (isOf_next hcs hab hids hd)
  exact ⟨(run_fst_next hds hab.symm hcs hc').1, (run_fst_next hcs hab hds hd').1,
    rows_comm hab hcs hds hc' hd'⟩

/-- For instance where one job is claimed and one of another name is inserted and claimed. -/
theorem tasks_apart_sample :
    let s : Store := ⟨.current, [Row.ofJob .sample]⟩
    let tick : Job := .new (.numbered 1) "tick" "" .null .epoch .epoch
    let claimed : Call := .claim "mail" .epoch
    ((claimed.run ((Call.insert tick).next s)).1 = (claimed.run s).1 ∧
      ((Call.insert tick).run (claimed.next s)).1 = ((Call.insert tick).run s).1 ∧
        ((Call.insert tick).next (claimed.next s)).rows.Perm
          (claimed.next ((Call.insert tick).next s)).rows) ∧
    (s.after [.insert tick, claimed, .claim "tick" .epoch]).part "mail" =
      (s.part "mail").after [claimed] := by
  intro s tick claimed
  have hs : s.Distinct := List.nodup_singleton _
  have hne : Job.sample.id.text ≠ tick.id.text := fun h =>
    absurd (JobId.text_inj.mp h) (by decide)
  have hid : s.hasId tick.id.text = false := by simp [s, Store.hasId, Row.ofJob, Column.is, hne]
  have hinsert : (Step.mk s (.insert tick)).isOf "tick" := by
    simp [Step.isOf, hid, show tick.name = "tick" from rfl]
  obtain ⟨hpair, hrun⟩ := tasks_apart hs
  refine ⟨hpair "mail" "tick" claimed (.insert tick) (by decide) rfl hinsert
    (fun i hi => by cases hi), ?_⟩
  have hsteps : s.stepsOf [.insert tick, claimed, .claim "tick" .epoch] "mail" =
      [⟨(Call.insert tick).next s, claimed⟩] := by
    simp [Store.stepsOf, Step.isOf, claimed, show tick.name = "tick" from rfl]
  have h := (hrun [.insert tick, claimed, .claim "tick" .epoch] "mail" ?_).2
  · rw [hsteps] at h
    exact h
  · intro e he
    simp only [Store.history_cons, Store.history_nil, List.mem_cons, List.not_mem_nil,
      or_false] at he
    rcases he with rfl | rfl | rfl
    · exact ⟨"tick", hinsert⟩
    · exact ⟨"mail", rfl⟩
    · exact ⟨"tick", rfl⟩

end JobQueue
