import JobQueue.Proofs.Rows
import Mathlib.Data.List.Induction

/-!
# JobQueue.Proofs.History

The history of a store: its calls, each with the store that it was made on.

- A row ages by one with every change (`Change.age_eq`): an even age is that of a
  row that may be claimed or is done, an odd age that of a claimed one.
- A job is inserted once, so no row of its identity is ever younger than one that
  was there before (`age_le_of_later`).
- A row is as the last call that touched it has made it (`exists_last_change`), and a
  claimed row is as the claim left it (`claim_of_dequeued`).
- Claims count the attempts of a row (`attempts_le_countP_claims`).
-/

namespace JobQueue

/-! ## Histories -/

/-- A call, and the store that it is made on. -/
structure Step where
  before : Store
  call : Call

/-- The store after a step. -/
def Step.after (e : Step) : Store := e.call.next e.before

/-- What becomes of the row of an identity in a step. -/
theorem Step.fate {e : Step} (hk : Keyed e.before.rows) (id : JobId) :
    Fate e.call id (e.before.row? id) (e.after.row? id) := fate_next hk e.call id

namespace Store

/-- The steps of calls, one after the other. -/
def history (s : Store) : List Call → List Step
  | [] => []
  | c :: cs => ⟨s, c⟩ :: (c.next s).history cs

@[simp] theorem history_nil (s : Store) : s.history [] = [] := rfl

@[simp] theorem history_cons (s : Store) (c : Call) (cs : List Call) :
    s.history (c :: cs) = ⟨s, c⟩ :: (c.next s).history cs := rfl

theorem history_append (s : Store) (cs ds : List Call) :
    s.history (cs ++ ds) = s.history cs ++ (s.after cs).history ds := by
  induction cs generalizing s with
  | nil => rfl
  | cons c cs ih => simp [ih]

theorem history_concat (s : Store) (cs : List Call) (c : Call) :
    s.history (cs ++ [c]) = s.history cs ++ [⟨s.after cs, c⟩] := history_append s cs [c]

theorem mem_history (s : Store) (cs : List Call) (c : Call) (ds : List Call) :
    (⟨s.after cs, c⟩ : Step) ∈ s.history (cs ++ c :: ds) := by
  rw [history_append, history_cons]
  exact List.mem_append_right _ List.mem_cons_self

/-- A step of a history lies between the calls before it and those after it. -/
theorem calls_of_history {s : Store} {cs : List Call} {pre post : List Step} {e : Step}
    (h : s.history cs = pre ++ e :: post) :
    ∃ cs₁ cs₂, cs = cs₁ ++ e.call :: cs₂ ∧ pre = s.history cs₁ ∧ e.before = s.after cs₁ ∧
      post = e.after.history cs₂ := by
  induction pre generalizing s cs with
  | nil =>
      cases cs with
      | nil => simp at h
      | cons c cs =>
          rw [history_cons, List.nil_append, List.cons.injEq] at h
          obtain ⟨rfl, rfl⟩ := h
          exact ⟨[], cs, rfl, rfl, rfl, rfl⟩
  | cons d pre ih =>
      cases cs with
      | nil => simp at h
      | cons c cs =>
          rw [history_cons, List.cons_append, List.cons.injEq] at h
          obtain ⟨rfl, h⟩ := h
          obtain ⟨cs₁, cs₂, rfl, rfl, hbefore, hpost⟩ := ih h
          exact ⟨c :: cs₁, cs₂, rfl, rfl, hbefore, hpost⟩

theorem call_mem_history (s : Store) {cs : List Call} {c : Call} (h : c ∈ cs) :
    ∃ e ∈ s.history cs, e.call = c := by
  obtain ⟨cs₁, cs₂, rfl⟩ := List.append_of_mem h
  exact ⟨_, mem_history s cs₁ c cs₂, rfl⟩

theorem call_mem_of_history {s : Store} {cs : List Call} {e : Step} (h : e ∈ s.history cs) :
    e.call ∈ cs := by
  obtain ⟨pre, post, hsplit⟩ := List.append_of_mem h
  obtain ⟨cs₁, cs₂, rfl, -⟩ := calls_of_history hsplit
  exact List.mem_append_right _ List.mem_cons_self

theorem length_history (s : Store) (cs : List Call) : (s.history cs).length = cs.length := by
  induction cs generalizing s with
  | nil => rfl
  | cons c cs ih => rw [history_cons, List.length_cons, ih, List.length_cons]

end Store

theorem keyed_of_history {cs : List Call} {pre post : List Step} {e : Step}
    (h : Store.empty.history cs = pre ++ e :: post) : Keyed e.before.rows := by
  obtain ⟨cs₁, cs₂, -, -, hbefore, -⟩ := Store.calls_of_history h
  rw [hbefore]
  exact keyed_after cs₁ keyed_empty

theorem keyed_of_mem_history {cs : List Call} {e : Step} (h : e ∈ Store.empty.history cs) :
    Keyed e.before.rows := by
  obtain ⟨pre, post, hsplit⟩ := List.append_of_mem h
  exact keyed_of_history hsplit

/-- What no two steps of a history do is done at most once. -/
theorem countP_le_one {α : Type} {p : α → Bool} {l : List α}
    (h : ∀ pre a post, l = pre ++ a :: post → p a → ∀ b ∈ post, ¬ p b) : l.countP p ≤ 1 := by
  induction l with
  | nil => simp
  | cons a l ih =>
      by_cases ha : p a
      · have hzero : l.countP p = 0 := List.countP_eq_zero.mpr (h [] a l rfl ha)
        exact Nat.le_of_eq (by rw [List.countP_cons_of_pos ha, hzero])
      · rw [List.countP_cons_of_neg ha]
        exact ih fun pre b post hl => h (a :: pre) b post (by rw [hl, List.cons_append])

/-! ## Ages -/

/-- How many changes a row has gone through. -/
def Row.age (r : Row) : Int := 2 * r.attempts - if r.hasStatus .dequeued then 1 else 0

theorem Row.age_of_dequeued {r : Row} (h : r.status = ofStatus .dequeued) :
    r.age = 2 * r.attempts - 1 := by
  rw [age, if_pos (hasStatus_iff.mpr h)]

theorem Row.age_of_isInAttempt {r : Row} {attempt : UInt32} (h : r.isInAttempt attempt) :
    r.age = 2 * attempt.toNat - 1 := by
  obtain ⟨hstatus, hattempts⟩ := isInAttempt_iff.mp h
  rw [age_of_dequeued hstatus, hattempts]

theorem Row.age_of_status {r : Row} {t : Status} (h : r.status = ofStatus t)
    (ht : t ≠ .dequeued) : r.age = 2 * r.attempts := by
  have hnot : ¬ r.hasStatus .dequeued := fun hd => ht ((hasStatus_of_status h _).mp hd)
  rw [age, if_neg hnot, Int.sub_zero]

/-- A row ages by one with every change. -/
theorem Change.age_eq {c : Call} {r r' : Row} (h : Change c r r') : r'.age = r.age + 1 := by
  obtain ⟨e, he⟩ := h.enters
  obtain ⟨t, ht, hfollows⟩ := he.follows
  have hstatus := he.status
  have hattempts := he.attempts
  -- enqueued rows are claimed, and claimed rows are claimed no longer
  cases t with
  | enqueued =>
      have heq : e.status = .dequeued := by simpa [Status.mayFollow] using hfollows
      rw [heq] at hstatus hattempts
      rw [Row.age_of_status ht (by decide), Row.age_of_dequeued hstatus, hattempts]
      simp
      omega
  | dequeued =>
      have hne : e.status ≠ .dequeued := by simpa [Status.mayFollow] using hfollows
      rw [Row.age_of_dequeued ht, Row.age_of_status hstatus hne, hattempts]
      simp [hne]
  | completed | failed | cancelled => exact absurd hfollows (by simp [Status.mayFollow])

/-! ## One life for each identity -/

theorem mem_insertedIds {c : Call} {cs : List Call} {j : Job} (hc : c.job? = some j) :
    j.id ∈ insertedIds (c :: cs) := by
  simp [insertedIds, hc]

theorem insertedIds_subset {c : Call} {cs : List Call} {id : JobId} (h : id ∈ insertedIds cs) :
    id ∈ insertedIds (c :: cs) := by
  rw [← List.singleton_append, insertedIds_append]
  exact List.mem_append_right _ h

/-- Where there is no row of an identity that is not inserted, there never is one. -/
theorem row?_after_eq_none {s : Store} (hk : Keyed s.rows) {id : JobId} {cs : List Call}
    (hid : id ∉ insertedIds cs) (h : s.row? id = none) : (s.after cs).row? id = none := by
  induction cs generalizing s with
  | nil => exact h
  | cons c cs ih =>
      refine ih (keyed_next hk) (fun hm => hid (insertedIds_subset hm)) ?_
      have hfate := fate_next hk c id
      rw [h] at hfate
      generalize (c.next s).row? id = o at hfate
      cases hfate with
      | same => rfl
      | inserted hj hjid => exact absurd (hjid ▸ mem_insertedIds hj) hid

/-- A job that there is a row of is not inserted again. -/
theorem not_inserted_again {cs ds : List Call} (hn : (insertedIds (cs ++ ds)).Nodup) {id : JobId}
    {r : Row} (h : (Store.empty.after cs).row? id = some r) : id ∉ insertedIds ds := by
  rw [insertedIds_append, List.nodup_append] at hn
  intro hd
  have hnot : id ∉ insertedIds cs := fun hc => hn.2.2 id hc id hd rfl
  rw [row?_after_eq_none keyed_empty hnot rfl] at h
  exact absurd h (by simp)

/-- As long as a job is not inserted, its row does not become younger. -/
theorem age_le_of_mem_history {s : Store} (hk : Keyed s.rows) {id : JobId} {cs : List Call}
    (hid : id ∉ insertedIds cs) {a : Int} (hs : ∀ r, s.row? id = some r → a ≤ r.age) :
    ∀ e ∈ s.history cs, ∀ r, e.before.row? id = some r → a ≤ r.age := by
  induction cs generalizing s with
  | nil => exact fun e he => absurd he List.not_mem_nil
  | cons c cs ih =>
      intro e he
      -- a call leaves the row as it is, or ages it, or removes it for good
      rcases List.mem_cons.mp he with rfl | he
      · exact hs
      · refine ih (keyed_next hk) (fun hm => hid (insertedIds_subset hm)) (fun r' hr' => ?_) e he
        have hfate := fate_next hk c id
        rw [hr'] at hfate
        generalize s.row? id = o at hfate hs
        cases hfate with
        | same => exact hs r' rfl
        | inserted hj hjid => exact absurd (hjid ▸ mem_insertedIds hj) hid
        | @changed r _ hch =>
            have hle := hs r rfl
            rw [hch.age_eq]
            omega

/-- The row of a job never becomes younger than it was after a step. -/
theorem age_le_of_later {cs : List Call} (hn : (insertedIds cs).Nodup) {pre post : List Step}
    {e : Step} (h : Store.empty.history cs = pre ++ e :: post) {id : JobId} {r : Row}
    (hr : e.after.row? id = some r) :
    ∀ x ∈ post, ∀ r', x.before.row? id = some r' → r.age ≤ r'.age := by
  obtain ⟨cs₁, cs₂, rfl, -, hbefore, rfl⟩ := Store.calls_of_history h
  have hafter : e.after = Store.empty.after (cs₁ ++ [e.call]) := by
    rw [Store.after_append, ← hbefore]
    rfl
  have hkeyed : Keyed e.after.rows := by
    rw [hafter]
    exact keyed_after _ keyed_empty
  have hid : id ∉ insertedIds cs₂ := by
    rw [hafter] at hr
    refine not_inserted_again ?_ hr
    rwa [List.append_assoc, List.singleton_append]
  refine age_le_of_mem_history hkeyed hid fun r' hr' => ?_
  rw [hr, Option.some.injEq] at hr'
  exact Int.le_of_eq (by rw [hr'])

/-! ## The last change of a row -/

/-- A step leaves the row of an identity as it is. -/
def Step.Spares (e : Step) (id : JobId) : Prop := e.after.row? id = e.before.row? id

/-- A step makes the row of an identity what it is. -/
inductive Step.Makes (e : Step) (id : JobId) : Row → Prop where
  | inserted {j : Job} (hj : e.call.job? = some j) (hid : j.id = id)
      (absent : e.before.row? id = none) : e.Makes id (.ofJob j)
  | changed {r r' : Row} (hr : e.before.row? id = some r) (h : Change e.call r r') :
      e.Makes id r'

/-- A row is what one of the calls has made it, and none after that one has touched it. -/
theorem exists_last_change {cs : List Call} {id : JobId} {r : Row}
    (hr : (Store.empty.after cs).row? id = some r) :
    ∃ old e mid, Store.empty.history cs = old ++ e :: mid ∧ e.after.row? id = some r ∧
      e.Makes id r ∧ ∀ x ∈ mid, x.Spares id := by
  induction cs using List.reverseRecOn with
  | nil => exact absurd hr (by simp [Store.row?, rowOf?, Store.empty])
  | append_singleton cs c ih =>
      -- the last call either has left the row alone or is the one
      have hfate := fate_next (keyed_after cs keyed_empty) c id
      rw [Store.after_append] at hr
      rw [Store.history_append]
      have hnext : (c.next (Store.empty.after cs)).row? id = some r := hr
      rw [hnext] at hfate
      generalize ho : (Store.empty.after cs).row? id = o at hfate
      cases hfate with
      | same =>
          obtain ⟨old, e, mid, hhist, hafter, hmakes, hmid⟩ := ih ho
          refine ⟨old, e, mid ++ [⟨Store.empty.after cs, c⟩], by simp [hhist], hafter, hmakes,
            fun x hx => ?_⟩
          rcases List.mem_append.mp hx with hx | hx
          · exact hmid x hx
          · rw [List.mem_singleton.mp hx]
            exact hnext.trans ho.symm
      | inserted hj hid =>
          exact ⟨_, ⟨Store.empty.after cs, c⟩, [], rfl, hnext, .inserted hj hid ho,
            fun x hx => absurd hx List.not_mem_nil⟩
      | changed hch =>
          exact ⟨_, ⟨Store.empty.after cs, c⟩, [], rfl, hnext, .changed ho hch,
            fun x hx => absurd hx List.not_mem_nil⟩

/-! ## The claim of a claimed row -/

/-- Only a claim makes a row claimed. -/
theorem Change.eq_claim {c : Call} {r r' : Row} (h : Change c r r')
    (hdeq : r'.status = Row.ofStatus .dequeued) :
    ∃ name now, c = .claim name now ∧ r.status = Row.ofStatus .enqueued := by
  cases h with
  | @claimed name now _ _ hopen _ => exact ⟨name, now, rfl, Row.status_of_isClaimable hopen⟩
  | @finished _ _ o now _ _ _ _ eq =>
      obtain ⟨events, -, rfl⟩ := Row.finishedWith_eq_some eq
      have hstatus := (r.withOutcome_status o now).symm.trans hdeq
      cases o <;> simp [Outcome.status, Row.ofStatus_inj] at hstatus
  | requeued _ eq =>
      obtain ⟨events, -, rfl⟩ := Row.requeued_eq_some eq
      simp [Row.ofStatus_inj] at hdeq

/-- A row that is claimed has been claimed by one of the calls, and none after that one
has touched it. -/
theorem claim_of_dequeued {cs : List Call} (hcs : AllNew cs) {id : JobId} {r : Row}
    (hr : (Store.empty.after cs).row? id = some r) (hdeq : r.status = Row.ofStatus .dequeued) :
    ∃ old e mid old', Store.empty.history cs = old ++ e :: mid ∧
      (∃ name now, e.call = .claim name now) ∧ e.before.row? id = some old' ∧
      old'.status = Row.ofStatus .enqueued ∧ e.after.row? id = some r ∧
      ∀ x ∈ mid, x.Spares id := by
  obtain ⟨old, e, mid, hhist, hafter, hmakes, hmid⟩ := exists_last_change hr
  cases hmakes with
  | @inserted j hj _ _ =>
      have hmem : e ∈ Store.empty.history cs := by simp [hhist]
      rw [hcs e.call (Store.call_mem_of_history hmem) j hj] at hdeq
      simp [Row.ofJob, Job.new, Row.ofStatus_inj] at hdeq
  | changed hold hch =>
      obtain ⟨name, now, hcall, hopen⟩ := hch.eq_claim hdeq
      exact ⟨old, e, mid, _, hhist, ⟨name, now, hcall⟩, hold, hopen, hafter, hmid⟩

/-! ## Counting claims -/

/-- Whether a call is a claim. -/
def Call.isClaim : Call → Bool
  | .claim _ _ => true
  | _ => false

/-- Whether a claim takes the row of an identity. -/
def Step.claims (e : Step) (id : JobId) : Bool :=
  e.call.isClaim && e.before.row? id != e.after.row? id

/-- A claim counts one more attempt. -/
theorem Change.attempts_eq {c : Call} {r r' : Row} (h : Change c r r') :
    r'.attempts = r.attempts + if c.isClaim then 1 else 0 := by
  cases h with
  | claimed _ eq =>
      obtain ⟨events, -, rfl⟩ := Row.claimed_eq_some eq
      rfl
  | finished _ _ eq =>
      obtain ⟨events, -, eq⟩ := Row.finishedWith_eq_some eq
      rw [eq, Row.withOutcome_attempts]
      exact (Int.add_zero _).symm
  | requeued _ eq =>
      obtain ⟨events, -, rfl⟩ := Row.requeued_eq_some eq
      exact (Int.add_zero _).symm

theorem Change.ne {c : Call} {r r' : Row} (h : Change c r r') : r ≠ r' := by
  intro heq
  have hage := h.age_eq
  rw [heq] at hage
  omega

theorem countP_claims_concat (cs : List Call) (c : Call) (id : JobId) :
    (Store.empty.history (cs ++ [c])).countP (·.claims id) =
      (Store.empty.history cs).countP (·.claims id) +
        if c.isClaim && (Store.empty.after cs).row? id != (Store.empty.after (cs ++ [c])).row? id
          then 1 else 0 := by
  rw [Store.history_concat, List.countP_append, List.countP_singleton, Store.after_append]
  rfl

theorem countP_claims_of_not_isClaim {cs : List Call} {c : Call} (hc : c.isClaim = false)
    {id : JobId} : (Store.empty.history (cs ++ [c])).countP (·.claims id) =
      (Store.empty.history cs).countP (·.claims id) := by
  rw [countP_claims_concat, hc, Bool.false_and]
  rfl

theorem not_isClaim_of_job? {c : Call} {i : Job} (h : c.job? = some i) : c.isClaim = false := by
  cases c with
  | claim name now => cases h
  | _ => rfl

/-- A row has no more attempts than there were claims of it. -/
theorem attempts_le_countP_claims {cs : List Call} (hcs : AllNew cs) {id : JobId} {r : Row}
    (hr : (Store.empty.after cs).row? id = some r) :
    r.attempts ≤ (Store.empty.history cs).countP (·.claims id) := by
  induction cs using List.reverseRecOn generalizing r with
  | nil => exact absurd hr (by simp [Store.row?, rowOf?, Store.empty])
  | append_singleton cs c ih =>
      have hfate : Fate c id ((Store.empty.after cs).row? id)
          ((Store.empty.after (cs ++ [c])).row? id) := by
        rw [Store.after_append]
        exact fate_next (keyed_after cs keyed_empty) c id
      have hcount := countP_claims_concat cs c id
      have hold := @ih fun d hd => hcs d (List.mem_append_left _ hd)
      rw [hr] at hfate hcount
      generalize (Store.empty.after cs).row? id = old at hfate hcount hold
      cases hfate with
      | same =>
          have hle := hold rfl
          omega
      | @inserted j hj _ =>
          have hattempts : (Row.ofJob j).attempts = 0 := by
            rw [hcs c (List.mem_append_right _ List.mem_cons_self) j hj]
            rfl
          omega
      | @changed x _ hch =>
          have hle := hold rfl
          have hne : (some x != some r) = true := by simp [hch.ne]
          rw [hne, Bool.and_true] at hcount
          rw [hch.attempts_eq, hcount]
          split <;> simp <;> omega

end JobQueue
