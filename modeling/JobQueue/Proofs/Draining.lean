import JobQueue.Proofs.Readable

/-!
# JobQueue.Proofs.Draining

Claims of a name that follow each other, until what is available is handed out.

- A claim that is answered takes one of the rows that may be claimed, and leaves the others
  in their places (`claim_of_answers`). So there is one less of them, and a row that may be
  claimed is handed out before there are none (`handsOut_of_answers`).
- A row that waits may be claimed as soon as it is available (`handsOut_of_upTo`), and a
  claimed row that is taken back at once (`handsOut_after_requeue`).
-/

namespace JobQueue

/-- What a row says about the instant in a column, if it is one. -/
def Column.instant? (c : Column) : Option Instant :=
  c.read?.bind fun text => (Stamp.parse text).toOption

/-- A row waits for an instant that has come. -/
def Row.IsAvailable (r : Row) (now : Instant) : Prop :=
  ∃ t, r.available.instant? = some t ∧ t ≤ now

theorem Row.instant?_ofInstant (t : Instant) : (ofInstant t).instant? = some t.stamped := by
  rw [Column.instant?, ofInstant, Column.read?, Stamp.readable_ofInstant, Option.bind_some,
    Stamp.parse_ofInstant]
  rfl

namespace Store

/-- How many rows a claim may take. -/
def waiting (s : Store) (name : String) (now : Instant) : Nat :=
  s.rows.countP (·.isClaimable name (Stamp.ofInstant now))

/-- Of claims that follow each other, as many as there are rows to take, one answers with
a job. -/
def HandsOut (s : Store) (name : String) (now : Instant) (id : JobId) : Prop :=
  ∃ k < s.waiting name now, ∃ j,
    ((s.after (.replicate k (.claim name now))).claim name now).1 = .ok (some j) ∧ j.id = id

/-- Whichever row a claim takes, it answers with its job. -/
def Answers (s : Store) (name : String) (now : Instant) : Prop :=
  ∀ r ∈ s.rows, r.isClaimable name (Stamp.ofInstant now) →
    ∃ r' j, r.claimed now = some r' ∧ r'.toJob = .ok j

/-- A claim takes a row and answers with its job. What is left are the others. -/
structure Takes (s : Store) (name : String) (now : Instant) (b : Row) (s' : Store) : Prop where
  /-- The answer is the job of the row. -/
  answer : ∃ j, s.claim name now = (.ok (some j), s') ∧
    ∀ id : JobId, b.id = .text id.text → j.id = id
  schema : s'.schema = s.schema
  /-- The other rows stay as they are. -/
  others : ∀ r ∈ s.rows, r ≠ b → r ∈ s'.rows
  /-- What may still be claimed is among them. -/
  open_mem : ∀ r ∈ s'.rows, r.isClaimable name (Stamp.ofInstant now) → r ∈ s.rows
  fewer : s'.waiting name now + 1 = s.waiting name now

/-! ## One claim -/

theorem earliest_eq_none {rows : List Row} (h : earliest rows = none) : rows = [] := by
  cases rows with
  | nil => rfl
  | cons r rows =>
      rw [earliest] at h
      split at h
      · cases h
      · split at h <;> cases h

variable {s : Store} {name : String} {now : Instant}

/-- If there is a row that may be claimed, a claim takes one. -/
theorem exists_claimable {r : Row} (hr : r ∈ s.rows)
    (hopen : r.isClaimable name (Stamp.ofInstant now)) : ∃ b, s.claimable name now = some b := by
  cases h : s.claimable name now with
  | some b => exact ⟨b, rfl⟩
  | none =>
      have hmem : r ∈ s.rows.filter (·.isClaimable name (Stamp.ofInstant now)) :=
        List.mem_filter.mpr ⟨hr, hopen⟩
      rw [earliest_eq_none h] at hmem
      exact absurd hmem List.not_mem_nil

/-- A row is replaced in its place. -/
theorem replace_of_split {pre post : List Row} {b b' : Row} (hk : Keyed s.rows)
    (h : s.rows = pre ++ b :: post) (hid : b'.id = b.id) :
    s.replace b' = { s with rows := pre ++ b' :: post } := by
  have hkeep {rows : List Row} (hrows : b.id ∉ rows.map Row.id) :
      rows.map (fun x => if x.id == b'.id then b' else x) = rows := by
    refine (List.map_congr_left fun x hx => if_neg ?_).trans (List.map_id rows)
    rw [beq_iff_eq, hid]
    exact fun heq => hrows (heq ▸ List.mem_map_of_mem hx)
  have hnodup := hk.nodup
  rw [h, List.map_append, List.map_cons, List.nodup_middle, List.nodup_cons, List.mem_append,
    not_or] at hnodup
  obtain ⟨⟨hpre, hpost⟩, -⟩ := hnodup
  rw [replace, h, List.map_append, List.map_cons, hkeep hpre, hkeep hpost,
    if_pos (beq_iff_eq.mpr hid.symm)]

/-- A claim puts the row that it takes in its place. -/
theorem claim_of_split {pre post : List Row} {b b' : Row} (hk : Keyed s.rows)
    (hjobs : s.schema.hasJobs) (h : s.claimable name now = some b)
    (hsplit : s.rows = pre ++ b :: post) (hnew : b.claimed now = some b') :
    s.claim name now =
      ((b'.toJob.mapError .row).map some, { s with rows := pre ++ b' :: post }) := by
  obtain ⟨hb, hopen⟩ := mem_of_claimable h
  obtain ⟨id, hid⟩ := hk.ids b hb
  have hch : Change (.claim name now) b b' := .claimed hopen hnew
  rw [claim_of_claimable hjobs h (by rw [hid]; rfl) hnew, replace_of_split hk hsplit hch.id_eq]

theorem not_isClaimable_of_claimed {b b' : Row} (h : b.claimed now = some b')
    (name stamp : String) :
    b'.isClaimable name stamp = false := by
  obtain ⟨events, -, rfl⟩ := Row.claimed_eq_some h
  rw [Bool.eq_false_iff]
  intro hopen
  exact absurd (Row.ofStatus_inj.mp (Row.status_of_isClaimable hopen)) (by decide)

/-- The row that a claim would take is taken, if the claim is answered. -/
theorem takes_of_claimable (hk : Keyed s.rows) (hjobs : s.schema.hasJobs)
    (hanswers : s.Answers name now) {b : Row} (h : s.claimable name now = some b) :
    ∃ s', s.Takes name now b s' := by
  obtain ⟨hb, hopen⟩ := mem_of_claimable h
  obtain ⟨b', j, hclaimed, hj⟩ := hanswers b hb hopen
  obtain ⟨pre, post, hsplit⟩ := List.append_of_mem hb
  obtain ⟨id, hid⟩ := hk.ids b hb
  have hch : Change (.claim name now) b b' := .claimed hopen hclaimed
  have hclosed := not_isClaimable_of_claimed hclaimed name (Stamp.ofInstant now)
  refine ⟨{ s with rows := pre ++ b' :: post }, ⟨j, ?_, fun id' hid' => ?_⟩, rfl, ?_, ?_, ?_⟩
  · rw [claim_of_split hk hjobs h hsplit hclaimed, hj]
    rfl
  · exact (Row.reads_of_toJob hj).id_eq (hch.id_eq.trans hid')
  · intro r hr hne
    rw [hsplit] at hr
    simp only [List.mem_append, List.mem_cons, hne, false_or] at hr ⊢
    exact hr.imp_right .inr
  · intro r hr hropen
    have hne : r ≠ b' := by
      rintro rfl
      rw [hclosed] at hropen
      exact absurd hropen (by decide)
    rw [hsplit]
    simp only [List.mem_append, List.mem_cons, hne, false_or] at hr ⊢
    exact hr.imp_right .inr
  · simp only [waiting, hsplit, List.countP_append, List.countP_cons, hopen, hclosed, if_true,
      Bool.false_eq_true, if_false]
    omega

/-! ## Claims that follow each other -/

/-- Where every claim is answered, a row that may be claimed is handed out. -/
theorem handsOut_of_answers {id : JobId} (hk : Keyed s.rows) (hjobs : s.schema.hasJobs)
    (hanswers : s.Answers name now) {r : Row} (hr : r ∈ s.rows) (hid : r.id = .text id.text)
    (hopen : r.isClaimable name (Stamp.ofInstant now)) : s.HandsOut name now id := by
  obtain ⟨n, hn⟩ : ∃ n, s.waiting name now = n := ⟨_, rfl⟩
  -- by induction on how many rows may be claimed
  induction n generalizing s with
  | zero => exact absurd hopen (List.countP_eq_zero.mp hn r hr)
  | succ n ih =>
      obtain ⟨b, hb⟩ := exists_claimable hr hopen
      obtain ⟨s', htakes⟩ := takes_of_claimable hk hjobs hanswers hb
      obtain ⟨j, hclaim, hj⟩ := htakes.answer
      have hnext : (Call.claim name now).next s = s' := congrArg Prod.snd hclaim
      by_cases hrb : r = b
      · exact ⟨0, by omega, j, congrArg Prod.fst hclaim, hj id (hrb ▸ hid)⟩
      · have hfewer := htakes.fewer
        obtain ⟨k, hk', i, hi, hiid⟩ := ih (hnext ▸ keyed_next hk) (htakes.schema ▸ hjobs)
          (fun x hx hxopen => hanswers x (htakes.open_mem x hx hxopen) hxopen)
          (htakes.others r hr hrb) (by omega)
        refine ⟨k + 1, by omega, i, ?_, hiid⟩
        rw [List.replicate_succ, after_cons, hnext]
        exact hi

end Store

/-! ## Jobs that are not done -/

/-- A stamp does not come after that of an instant if what it keeps does not come after the
settled instant. -/
theorem Row.upTo_iff {t now : Instant} (hnow : now.HasStamp) :
    (ofInstant t).upTo (Stamp.ofInstant now) ↔ t.stamped ≤ now.settled := by
  obtain ⟨-, -, htrunc⟩ := t.hasStamp_stamped
  have hnanos : t.stamped.nanos / 1000 * 1000 = t.stamped.nanos := congrArg Instant.nanos htrunc
  rw [ofInstant, Column.upTo_text, Bool.not_eq_true', decide_eq_false_iff_not,
    Stamp.ofInstant_lt_iff, Instant.not_lt, Instant.stamped_of_hasStamp hnow, Instant.le_iff,
    Instant.le_iff]
  simp only [Instant.truncMicros]
  omega

/-- What waits for an instant that has come may be claimed. -/
theorem Row.IsAvailable.upTo {r : Row} {now : Instant} (h : r.IsAvailable now) (hr : r.Typed)
    (hnow : now.HasStamp) : r.available.upTo (Stamp.ofInstant now) := by
  obtain ⟨u, hu, h⟩ := h
  obtain ⟨t, ht⟩ := hr.available
  rw [ht, instant?_ofInstant, Option.some.injEq] at hu
  rw [ht, upTo_iff hnow, hu]
  exact Instant.le_trans h now.le_settled

/-- A row that is not done waits or is claimed. -/
theorem Row.Recorded.open_cases {r : Row} (hr : r.Recorded) (h : r.isTerminal = false) :
    r.status = ofStatus .enqueued ∨ r.status = ofStatus .dequeued := by
  obtain ⟨t, ht⟩ := hr.status
  have hopen : ¬ t.isTerminal := fun hdone => by
    rw [(isTerminal_of_status ht).mpr hdone] at h
    exact absurd h (by decide)
  cases t with
  | enqueued => exact .inl ht
  | dequeued => exact .inr ht
  | completed | failed | cancelled => exact absurd rfl hopen

theorem Row.isClaimable_of_status {r : Row} {name stamp : String} (hname : r.name = .text name)
    (hstatus : r.status = ofStatus .enqueued) (havailable : r.available.upTo stamp) :
    r.isClaimable name stamp := by
  rw [isClaimable, is_iff.mpr hname, hasStatus_iff.mpr hstatus, havailable]
  rfl

section

variable {cs : List Call} {name : String} {cutoff now : Instant}

/-- Whichever row a claim takes, it answers with its job, unless too many claims came
before it. -/
theorem answers_after (hcs : AllNew cs) (hdata : AllStorable cs) (hclaims : FewClaims cs) :
    (Store.empty.after cs).Answers name now := by
  intro r hr hopen
  obtain ⟨-, es, hevents, -⟩ := consistent_after hcs hr
  have hclaimed := Row.claimed_text hevents now
  obtain ⟨j, hj⟩ := exists_toJob_of_claim hcs hdata hclaims hr (.claimed hopen hclaimed)
  exact ⟨_, j, hclaimed, hj⟩

/-- A job that waits is handed out when it is available. -/
theorem handsOut_of_upTo (hcs : AllNew cs) (hdata : AllStorable cs) (hclaims : FewClaims cs)
    {r : Row} (hr : r ∈ (Store.empty.after cs).rows) {id : JobId} (hid : r.id = .text id.text)
    (hname : r.name = .text name) (hstatus : r.status = Row.ofStatus .enqueued)
    (havailable : r.available.upTo (Stamp.ofInstant now)) :
    (Store.empty.after cs).HandsOut name now id :=
  Store.handsOut_of_answers (keyed_after cs keyed_empty) (hasJobs_after cs)
    (answers_after hcs hdata hclaims) hr hid (Row.isClaimable_of_status hname hstatus havailable)

/-- What becomes of a row when claims are taken back. -/
theorem mem_after_requeue (hcs : AllNew cs) {r : Row} (hr : r ∈ (Store.empty.after cs).rows)
    (name : String) (cutoff now : Instant) :
    ∃ r', r' ∈ (Store.empty.after (cs ++ [.requeue name cutoff now])).rows ∧
      if r.isStale name (Stamp.ofInstant cutoff) then r.requeued now = some r' else r' = r := by
  have hsome (x : Row) (hx : x ∈ (Store.empty.after cs).rows) : (x.requeued now).isSome := by
    obtain ⟨-, es, hevents, -⟩ := consistent_after hcs hx
    rw [Row.requeued_text hevents]
    rfl
  rw [Store.after_append, Store.after_cons, Store.after_nil, Call.next,
    Store.requeue_of_stale (hasJobs_after cs) fun x hx _ => hsome x hx]
  refine ⟨_, List.mem_map_of_mem hr, ?_⟩
  split
  · obtain ⟨r', hr'⟩ := Option.isSome_iff_exists.mp (hsome r hr)
    rw [hr', Option.getD_some]
  · rfl

/-- A job that is not done is handed out again, once its claim is taken back if it was
claimed, and once it is available if it waits. -/
theorem handsOut_after_requeue (hcs : AllNew cs) (hdata : AllStorable cs)
    (hclaims : FewClaims cs) {r : Row} (hr : r ∈ (Store.empty.after cs).rows)
    (hopen : r.isTerminal = false) {id : JobId} (hid : r.id = .text id.text)
    (hname : r.name = .text name) (hnow : now.HasStamp)
    (hstarted : r.hasStatus .dequeued → r.started.before (Stamp.ofInstant cutoff))
    (havailable : r.hasStatus .enqueued → r.IsAvailable now) :
    (Store.empty.after (cs ++ [.requeue name cutoff now])).HandsOut name now id := by
  have hcs' : AllNew (cs ++ [.requeue name cutoff now]) := hcs.concat fun _ h => by cases h
  have hdata' : AllStorable (cs ++ [.requeue name cutoff now]) :=
    hdata.concat fun _ h => by cases h
  have hclaims' : FewClaims (cs ++ [.requeue name cutoff now]) := hclaims.concat rfl
  obtain ⟨r', hr', hfate⟩ := mem_after_requeue hcs hr name cutoff now
  rcases (consistent_after hcs hr).1.open_cases hopen with hstatus | hstatus
  · -- a row that waits stays as it is
    have hfresh : ¬ r.isStale name (Stamp.ofInstant cutoff) := fun hstale => by
      have hclaimed := Row.status_of_isStale hstale
      rw [hstatus, Row.ofStatus_inj] at hclaimed
      exact absurd hclaimed (by decide)
    rw [if_neg hfresh] at hfate
    subst hfate
    exact handsOut_of_upTo hcs' hdata' hclaims' hr' hid hname hstatus
      ((havailable (Row.hasStatus_iff.mpr hstatus)).upTo (typed_after cs r' hr) hnow)
  · -- a claimed row becomes available at the instant of the claims
    have hstale : r.isStale name (Stamp.ofInstant cutoff) := by
      rw [Row.isStale, is_iff.mpr hname, Row.hasStatus_iff.mpr hstatus,
        hstarted (Row.hasStatus_iff.mpr hstatus)]
      rfl
    rw [if_pos hstale] at hfate
    obtain ⟨events, -, rfl⟩ := Row.requeued_eq_some hfate
    exact handsOut_of_upTo hcs' hdata' hclaims' hr' hid hname rfl (upTo_ofInstant now)

end

end JobQueue
