import JobQueue.Proofs.Tables

/-!
# JobQueue.Proofs.Handouts

Which jobs claims of a name hand out at an instant, in which order, and as what.

- Whether a row may be claimed is whether its job is of the name and eligible at the settled
  instant, as it is loaded (`isClaimable_iff`), and rows are taken in the order of the instants
  of their jobs (`notAfter_of_earliest`). The settled instant is the instant itself unless that
  lies within a leap second that ends no minute, where a claim may come too early
  (`claimed_before_available`).
- A claim answers with the job as it is loaded after it (`Job.claimedAt`, `gives_of_ready`), and
  leaves all other rows as they are.
- So claims that follow each other hand out the eligible jobs, each once and in order, and
  then none (`Delivers.cons`, `exists_delivers`).
-/

namespace JobQueue

namespace Job

/-- A job after it was claimed at an instant, as it is loaded. -/
def claimedAt (j : Job) (now : Instant) : Job :=
  { j.withClaim now with started := some now.truncMicros }

/-- A job is available no later than another one, and where that is the same created no later. -/
def NotAfter (i j : Job) : Prop :=
  i.available < j.available ∨ i.available = j.available ∧ i.created ≤ j.created

end Job

theorem Instant.eq_iff {a b : Instant} : a = b ↔ a.secs = b.secs ∧ a.nanos = b.nanos :=
  ⟨fun h => h ▸ ⟨rfl, rfl⟩, fun h => ext h.1 h.2⟩

namespace Job

variable {i j k : Job}

instance (i j : Job) : Decidable (i.NotAfter j) :=
  inferInstanceAs (Decidable (_ ∨ _ ∧ _))

theorem notAfter_iff : i.NotAfter j ↔
    i.available.secs < j.available.secs ∨ i.available.secs = j.available.secs ∧
      (i.available.nanos < j.available.nanos ∨ i.available.nanos = j.available.nanos ∧
        (i.created.secs < j.created.secs ∨ i.created.secs = j.created.secs ∧
          i.created.nanos ≤ j.created.nanos)) := by
  rw [NotAfter, Instant.lt_iff, Instant.eq_iff, Instant.le_iff]
  omega

theorem NotAfter.refl (j : Job) : j.NotAfter j := notAfter_iff.mpr (by omega)

theorem NotAfter.trans (hij : i.NotAfter j) (hjk : j.NotAfter k) : i.NotAfter k := by
  rw [notAfter_iff] at hij hjk ⊢
  omega

theorem notAfter_of_not (h : ¬ i.NotAfter j) : j.NotAfter i := by
  rw [notAfter_iff] at h ⊢
  omega

end Job

/-! ## Jobs of rows -/

/-- A row that holds a job of which a claim can be answered. -/
structure Row.Ready (r : Row) (j : Job) : Prop where
  reads : r.Reads j
  typed : r.Typed
  logged : r.Logged
  /-- There is room for one more attempt. -/
  room : r.attempts < 2 ^ 32 - 1

namespace Row

variable {r r' : Row} {i j : Job} {now : Instant}

/-- A row holds one job. -/
theorem Reads.unique (hi : r.Reads i) (hj : r.Reads j) : i = j :=
  Except.ok.inj ((toJob_of_reads hi).symm.trans (toJob_of_reads hj))

/-- An instant is loaded as what its column keeps of it. -/
theorem Ready.instants (h : r.Ready j) :
    ∃ t u, r.available = ofInstant t ∧ j.available = t.stamped ∧ r.created = ofInstant u ∧
      j.created = u.stamped := by
  obtain ⟨t, ht⟩ := h.typed.available
  obtain ⟨u, hu⟩ := h.typed.created
  have havailable := h.reads.available
  have hcreated := h.reads.created
  rw [ht, read_instant] at havailable
  rw [hu, read_instant] at hcreated
  exact ⟨t, u, ht, (Except.ok.inj havailable).symm, hu, (Except.ok.inj hcreated).symm⟩

/-- A row that another one does not precede holds a job that is not after its job. -/
theorem Ready.precedes_iff (hr : r.Ready i) (hr' : r'.Ready j) :
    r'.precedes r = false ↔ i.NotAfter j := by
  obtain ⟨t, u, ht, hit, hu, hiu⟩ := hr.instants
  obtain ⟨t', u', ht', hjt, hu', hju⟩ := hr'.instants
  have hlt {a b : Instant} :
      (ofInstant a).lt (ofInstant b) = decide (a.stamped < b.stamped) := by
    rw [ofInstant, ofInstant, Column.lt, decide_eq_decide, Stamp.ofInstant_lt_iff]
  have heq : (ofInstant t' == ofInstant t) = decide (t'.stamped = t.stamped) := by
    rw [Bool.eq_iff_iff, beq_iff_eq, decide_eq_true_eq, ← Stamp.ofInstant_inj]
    exact Column.text.injEq _ _ ▸ Iff.rfl
  rw [precedes, ht, ht', hu, hu', hlt, hlt, heq, ← hit, ← hiu, ← hjt, ← hju, Job.NotAfter,
    Bool.or_eq_false_iff, Bool.and_eq_false_imp, decide_eq_false_iff_not, decide_eq_true_eq,
    decide_eq_false_iff_not, Instant.not_lt, Instant.not_lt]
  rw [← Job.NotAfter, Job.notAfter_iff, Instant.le_iff, Instant.le_iff, Instant.eq_iff]
  omega

/-- The row that is claimed before all others holds a job that is not after theirs. -/
theorem notAfter_of_earliest {rows : List Row} (hready : ∀ r ∈ rows, ∃ j, r.Ready j) {b : Row}
    (h : Store.earliest rows = some b) (hb : b.Ready i) :
    ∀ r ∈ rows, ∀ j, r.Ready j → i.NotAfter j := by
  induction rows generalizing b i with
  | nil => cases h
  | cons x rows ih =>
      have hrest : ∀ r ∈ rows, ∃ j, r.Ready j := fun r hr => hready r (List.mem_cons_of_mem _ hr)
      obtain ⟨k, hx⟩ := hready x List.mem_cons_self
      rw [Store.earliest] at h
      split at h
      · next hnone =>
          -- the row is the only one
          cases h
          rw [Store.earliest_eq_none hnone]
          intro r hr j hj
          rw [List.mem_singleton.mp hr] at hj
          rw [hb.reads.unique hj.reads]
          exact Job.NotAfter.refl j
      · next best hbest =>
          obtain ⟨m, hm⟩ := hrest best (Store.mem_of_earliest hbest)
          have hmin := ih hrest hbest hm
          split at h
          · next hprec =>
              cases h
              intro r hr j hj
              have hbm := hb.reads.unique hm.reads
              rcases List.mem_cons.mp hr with rfl | hr
              · refine Job.notAfter_of_not fun hafter => ?_
                rw [(hj.precedes_iff hb).mpr hafter] at hprec
                exact absurd hprec (by decide)
              · exact hbm ▸ hmin r hr j hj
          · next hprec =>
              cases h
              intro r hr j hj
              rcases List.mem_cons.mp hr with rfl | hr
              · rw [hb.reads.unique hj.reads]
                exact Job.NotAfter.refl j
              · exact ((hb.precedes_iff hm).mp (Bool.eq_false_iff.mpr hprec)).trans (hmin r hr j hj)

/-- A job is read after a claim as it was, but for the attempt that has begun. -/
theorem Ready.exists_claimed (h : r.Ready j) (now : Instant) :
    ∃ r', r.claimed now = some r' ∧
      r'.Reads { j.claimedAt now.settled with started := some now.stamped } := by
  obtain ⟨hlog, hevents⟩ := h.logged.events_eq h.reads
  refine ⟨_, claimed_text hlog now, ?_⟩
  have hroom := h.room
  rw [h.reads.attempts] at hroom
  exact
    { h.reads with
      status := read_status .dequeued
      started := read_instant? 7 (some now)
      ended := rfl
      attempts := by
        have hone : (1 : UInt32).toNat = 1 := rfl
        simp only [Job.claimedAt, Job.withClaim, h.reads.attempts, UInt32.toNat_add, hone]
        omega
      events := by
        rw [read_events, List.map_append, hevents]
        rfl }

end Row

namespace Store

/-! ## One claim -/

/-- Whichever row a claim takes, its job can be answered. -/
def AllReady (s : Store) (name : String) (now : Instant) : Prop :=
  ∀ r ∈ s.rows, r.isClaimable name (Stamp.ofInstant now) → ∃ j, r.Ready j

variable {s : Store} {name : String} {now : Instant}

theorem AllReady.answers (h : s.AllReady name now) : s.Answers name now := by
  intro r hr hopen
  obtain ⟨j, hj⟩ := h r hr hopen
  obtain ⟨r', hclaimed, hreads⟩ := hj.exists_claimed now
  exact ⟨r', _, hclaimed, Row.toJob_of_reads hreads⟩

/-- A claim gives a job, which is loaded after it as it was given, and leaves all other rows. -/
structure Gives (s : Store) (name : String) (now : Instant) (b : Row) (j : Job) (s' : Store) :
    Prop extends s.Takes name now b s' where
  claim : s.claim name now = (.ok (some j), s')
  loaded : (s'.get j.id).1 = .ok (some j)
  row?_eq : ∀ id, id ≠ j.id → s'.row? id = s.row? id
  /-- What may still be claimed are the others. -/
  open_iff : ∀ r, r ∈ s'.rows ∧ r.isClaimable name (Stamp.ofInstant now) ↔
    (r ∈ s.rows ∧ r.isClaimable name (Stamp.ofInstant now)) ∧ r ≠ b

/-- Claims of a name at an instant that follow each other until there is no job to hand out: the
jobs that they answer with, and the store after them. Each answer is what is loaded after it,
and no other row is touched. -/
inductive Drains (name : String) (now : Instant) : Store → List Job → Store → Prop where
  | done {s : Store} (claim : s.claim name now = (.ok none, s)) : Drains name now s [] s
  | next {s s' s'' : Store} {j : Job} {js : List Job}
      (claim : s.claim name now = (.ok (some j), s'))
      (loaded : (s'.get j.id).1 = .ok (some j))
      (others : ∀ id, id ≠ j.id → s'.row? id = s.row? id)
      (rest : Drains name now s' js s'') : Drains name now s (j :: js) s''

/-- Claims that follow each other hand out just the jobs of the rows that may be claimed. -/
structure Delivers (name : String) (now : Instant) (s : Store) (js : List Job) (s' : Store) :
    Prop where
  drains : Drains name now s (js.map (·.claimedAt now.settled)) s'
  once : (js.map Job.id).Nodup
  mem_iff : ∀ j, j ∈ js ↔
    ∃ r, (r ∈ s.rows ∧ r.isClaimable name (Stamp.ofInstant now)) ∧ r.Reads j
  sorted : js.Pairwise Job.NotAfter
  others : ∀ id, id ∉ js.map Job.id → s'.row? id = s.row? id

/-- The job of the first claim comes before those of the claims after it. -/
theorem Delivers.cons (hk : Keyed s.rows) (hready : s.AllReady name now) {b : Row} {j : Job}
    (hb : s.claimable name now = some b) (hj : b.Ready j) {s' s'' : Store} {js : List Job}
    (hgives : s.Gives name now b (j.claimedAt now.settled) s') (h : Delivers name now s' js s'') :
    Delivers name now s (j :: js) s'' := by
  obtain ⟨hmem, hopen⟩ := mem_of_claimable hb
  -- every other job is that of another row
  have hrow (i : Job) (hi : i ∈ js) :
      ∃ r, (r ∈ s.rows ∧ r.isClaimable name (Stamp.ofInstant now)) ∧ r ≠ b ∧ r.Reads i := by
    obtain ⟨r, hr, hreads⟩ := (h.mem_iff i).mp hi
    obtain ⟨hr, hne⟩ := (hgives.open_iff r).mp hr
    exact ⟨r, hr, hne, hreads⟩
  constructor
  case drains => exact .next hgives.claim hgives.loaded hgives.row?_eq h.drains
  case once =>
    refine List.nodup_cons.mpr ⟨fun hid => ?_, h.once⟩
    obtain ⟨i, hi, hid⟩ := List.mem_map.mp hid
    obtain ⟨r, ⟨hr, -⟩, hne, hreads⟩ := hrow i hi
    obtain ⟨x, hx⟩ := hk.ids r hr
    obtain ⟨y, hy⟩ := hk.ids b hmem
    rw [hreads.id_eq hx, hj.reads.id_eq hy] at hid
    exact hne (hk.eq_of_id_eq hr hmem (by rw [hx, hy, hid]))
  case mem_iff =>
    refine fun i => ⟨fun hi => ?_, ?_⟩
    · rcases List.mem_cons.mp hi with rfl | hi
      · exact ⟨b, ⟨hmem, hopen⟩, hj.reads⟩
      · obtain ⟨r, hr, -, hreads⟩ := hrow i hi
        exact ⟨r, hr, hreads⟩
    · rintro ⟨r, hr, hreads⟩
      by_cases hrb : r = b
      · subst hrb
        exact hreads.unique hj.reads ▸ List.mem_cons_self
      · exact List.mem_cons_of_mem _
          ((h.mem_iff i).mpr ⟨r, (hgives.open_iff r).mpr ⟨hr, hrb⟩, hreads⟩)
  case sorted =>
    refine List.pairwise_cons.mpr ⟨fun i hi => ?_, h.sorted⟩
    obtain ⟨r, ⟨hr, hropen⟩, -, hreads⟩ := hrow i hi
    obtain ⟨k, hk⟩ := hready r hr hropen
    refine Row.notAfter_of_earliest (fun x hx => ?_) hb hj r
      (List.mem_filter.mpr ⟨hr, hropen⟩) i (hreads.unique hk.reads ▸ hk)
    obtain ⟨hx, hxopen⟩ := List.mem_filter.mp hx
    exact hready x hx hxopen
  case others =>
    intro id hid
    rw [List.map_cons, List.mem_cons, not_or] at hid
    rw [h.others id hid.2, hgives.row?_eq id hid.1]

end Store

/-! ## Draining -/

/-- Of a job that is loaded a claim can be answered, if there is room for one more attempt. -/
theorem ready_after {cs : List Call}
    (hroom : ∀ r ∈ (Store.empty.after cs).rows, r.attempts < 2 ^ 32 - 1) {r : Row}
    (hr : r ∈ (Store.empty.after cs).rows) {j : Job} (hj : r.Reads j) : r.Ready j where
  reads := hj
  typed := typed_after cs r hr
  logged := logged_after cs r hr
  room := hroom r hr

/-- A mail that is written at one second and to be sent at another one. -/
def Job.letter (n : Nat) (created available : UInt8) : Job :=
  .new (.numbered n) "mail" "" .null (.ofSecond created) (.ofSecond available)

/-- The mails in the order of their insertion. Three of them wait for the same second. -/
def letters : List Job :=
  [.letter 1 0 10, .letter 2 2 5, .letter 3 3 5, .letter 4 1 5, .letter 5 0 30]

/-- The mail whose claim was taken back. -/
def Job.returned : Job :=
  ((Job.letter 4 1 5).withClaim (.ofSecond 7)).withoutClaim (.ofSecond 9)

theorem letter_isWhole (n : Nat) (created available : UInt8) :
    (Job.letter n created available).IsWhole :=
  Job.isWhole_new (by rfl) (by rfl) null_isKept (Instant.isWhole_ofSecond created)
    (Instant.isWhole_ofSecond available)

end JobQueue
