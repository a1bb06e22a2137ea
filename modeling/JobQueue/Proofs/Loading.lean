import JobQueue.Proofs.Progress
import JobQueue.Proofs.Reading

/-!
# JobQueue.Proofs.Loading

What it takes to read a job from a row: every column by itself (`toJob_eq_ok_iff`).
A claim answers with the job that is read from the row it has claimed
(`row?_of_claim`).
-/

namespace JobQueue

/-- The columns of a row are read as the fields of a job. -/
structure Row.Reads (r : Row) (j : Job) : Prop where
  id : (readRequired 0 r.id >>= readId) = .ok j.id
  name : readRequired 1 r.name = .ok j.name
  label : readRequired 2 r.label = .ok j.label
  data : (readRequired 3 r.data >>= readDocument "data") = .ok j.data
  status : (readRequired 4 r.status >>= readStatus) = .ok j.status
  created : (readRequired 5 r.created >>= readStamp) = .ok j.created
  available : (readRequired 6 r.available >>= readStamp) = .ok j.available
  started : readOptional 7 readStamp r.started = .ok j.started
  ended : readOptional 8 readStamp r.ended = .ok j.ended
  finished : readOptional 9 readStamp r.finished = .ok j.finished
  attempts : r.attempts = j.attempts.toNat
  events : (readRequired 11 r.events >>= readEvents) = .ok j.events
  result : readOptional 12 (readDocument "result") r.result = .ok j.result
  error : readText 13 r.error = .ok j.error
  reason : readText 14 r.reason = .ok j.reason

namespace Row

/-- A job that is read from a row has what is read from its columns. -/
theorem reads_of_toJob {r : Row} {j : Job} (h : r.toJob = .ok j) : r.Reads j := by
  obtain ⟨idText, hidText, h⟩ := bind_eq_ok h
  obtain ⟨statusText, hstatusText, h⟩ := bind_eq_ok h
  obtain ⟨eventsText, heventsText, h⟩ := bind_eq_ok h
  obtain ⟨events, hevents, h⟩ := bind_eq_ok h
  obtain ⟨id, hid, h⟩ := bind_eq_ok h
  obtain ⟨name, hname, h⟩ := bind_eq_ok h
  obtain ⟨label, hlabel, h⟩ := bind_eq_ok h
  obtain ⟨dataText, hdataText, h⟩ := bind_eq_ok h
  obtain ⟨data, hdata, h⟩ := bind_eq_ok h
  obtain ⟨status, hstatus, h⟩ := bind_eq_ok h
  obtain ⟨createdText, hcreatedText, h⟩ := bind_eq_ok h
  obtain ⟨created, hcreated, h⟩ := bind_eq_ok h
  obtain ⟨availableText, havailableText, h⟩ := bind_eq_ok h
  obtain ⟨available, havailable, h⟩ := bind_eq_ok h
  obtain ⟨started, hstarted, h⟩ := bind_eq_ok h
  obtain ⟨ended, hended, h⟩ := bind_eq_ok h
  obtain ⟨finished, hfinished, h⟩ := bind_eq_ok h
  -- the attempts are checked before the rest is read
  split at h
  · next hrange =>
      obtain ⟨attempts, hattempts, h⟩ := bind_eq_ok h
      obtain ⟨result, hresult, h⟩ := bind_eq_ok h
      obtain ⟨error, herror, h⟩ := bind_eq_ok h
      obtain ⟨reason, hreason, h⟩ := bind_eq_ok h
      have hlt : r.attempts.toNat < 2 ^ 32 := by omega
      have htoNat : r.attempts = attempts.toNat := by
        cases hattempts
        rw [UInt32.toNat_ofNat_of_lt' hlt]
        omega
      cases h
      exact
        { id := by rw [hidText]; exact hid
          name := hname
          label := hlabel
          data := by rw [hdataText]; exact hdata
          status := by rw [hstatusText]; exact hstatus
          created := by rw [hcreatedText]; exact hcreated
          available := by rw [havailableText]; exact havailable
          started := hstarted
          ended := hended
          finished := hfinished
          attempts := htoNat
          events := by rw [heventsText]; exact hevents
          result := hresult
          error := herror
          reason := hreason }
  · obtain ⟨attempts, hattempts, -⟩ := bind_eq_ok h
    cases hattempts

/-- A job is read from a row whose columns are read as its fields. -/
theorem toJob_of_reads {r : Row} {j : Job} (h : r.Reads j) : r.toJob = .ok j := by
  obtain ⟨idText, hidText, hid⟩ := bind_eq_ok h.id
  obtain ⟨dataText, hdataText, hdata⟩ := bind_eq_ok h.data
  obtain ⟨statusText, hstatusText, hstatus⟩ := bind_eq_ok h.status
  obtain ⟨createdText, hcreatedText, hcreated⟩ := bind_eq_ok h.created
  obtain ⟨availableText, havailableText, havailable⟩ := bind_eq_ok h.available
  obtain ⟨eventsText, heventsText, hevents⟩ := bind_eq_ok h.events
  have hlt := j.attempts.toNat_lt
  have hrange : 0 ≤ r.attempts ∧ r.attempts < 2 ^ 32 := by
    rw [h.attempts]
    omega
  have hattempts : UInt32.ofNat r.attempts.toNat = j.attempts := by
    rw [h.attempts, Int.toNat_natCast, UInt32.ofNat_toNat]
  simp only [toJob, ok_bind, hidText, hstatusText, heventsText, hevents, hid, h.name, h.label,
    hdataText, hdata, hstatus, hcreatedText, hcreated, havailableText, havailable, h.started, h.ended,
    h.finished, if_pos hrange, hattempts, h.result, h.error, h.reason]
  rfl

theorem toJob_eq_ok_iff {r : Row} {j : Job} : r.toJob = .ok j ↔ r.Reads j :=
  ⟨reads_of_toJob, toJob_of_reads⟩

/-! ## Single columns -/

theorem readRequired_text {index : Nat} {s : String} (h : Column.readable s = s) :
    readRequired index (.text s) = .ok s := by
  rw [readRequired, readText, h]
  rfl

/-- An identity is read as it was written. -/
theorem read_id (id : JobId) : (readRequired 0 (.text id.text) >>= readId) = .ok id := by
  rw [readRequired_text id.readable_text, ok_bind, readId, JobId.parse_text]
  rfl

/-- A payload is read as it was written, if its text can be read back. -/
theorem read_data {v : Json} (hback : Json.parse v.render = .ok v) :
    (readRequired 3 (.text v.render) >>= readDocument "data") = .ok v := by
  rw [readRequired_text (Column.readable_of_not_mem (Json.nul_not_mem_render v)), ok_bind,
    readDocument, hback]
  rfl

/-- Events are read as they were written, at their settled instants. -/
theorem read_events (es : List Event) :
    (readRequired 11 (.text (Log.text es)) >>= readEvents) = .ok (es.map Event.settled) := by
  rw [readRequired_text (Log.readable_text es), ok_bind, readEvents, Log.parse_text]
  rfl

namespace Reads

variable {r : Row} {j : Job}

theorem id_eq (h : r.Reads j) {id : JobId} (hid : r.id = .text id.text) : j.id = id := by
  have hread := h.id
  rw [hid, read_id] at hread
  exact (Except.ok.inj hread).symm

theorem data_eq (h : r.Reads j) {v : Json} (hv : r.data = .text v.render)
    (hback : Json.parse v.render = .ok v) : j.data = v := by
  have hread := h.data
  rw [hv, read_data hback] at hread
  exact (Except.ok.inj hread).symm

end Reads

end Row

/-! ## Claims -/

/-- A claim answers with a job that is read from the row that it has changed. -/
theorem Store.reads_of_claim {s : Store} {name : String} {now : Instant} {j : Job}
    (h : (s.claim name now).1 = .ok (some j)) :
    ∃ r r', s.claimable name now = some r ∧ (s.claim name now).2 = s.replace r' ∧
      Change (.claim name now) r r' ∧ r'.Reads j := by
  rcases s.claim_cases name now with ⟨a, hne, he⟩ | ⟨r, r', hr, hnew, he⟩
  · rw [he] at h
    exact absurd h (hne j)
  · rw [he] at h ⊢
    cases hread : r'.toJob with
    | error f => simp [hread, Except.mapError, Except.map] at h
    | ok j' =>
        simp only [hread, Except.mapError, Except.map, Except.ok.injEq, Option.some.injEq] at h
        subst h
        exact ⟨r, r', hr, rfl, .claimed (mem_of_claimable hr).2 hnew, Row.reads_of_toJob hread⟩

/-- A claim answers with the job of the row that it has claimed. -/
theorem Store.row?_of_claim {s : Store} (hk : Keyed s.rows) {name : String} {now : Instant}
    {j : Job} (h : (s.claim name now).1 = .ok (some j)) :
    ∃ r r', s.row? j.id = some r ∧ (s.claim name now).2.row? j.id = some r' ∧
      Change (.claim name now) r r' ∧ r'.Reads j := by
  obtain ⟨r, r', hr, hstore, hch, hreads⟩ := reads_of_claim h
  have hmem := (mem_of_claimable hr).1
  obtain ⟨id, hid⟩ := hk.ids r hmem
  rw [← hreads.id_eq (hch.id_eq.trans hid)] at hid
  obtain ⟨hold, hafter⟩ := row?_replace hk hmem hid hch
  rw [hstore]
  exact ⟨r, r', hold, hafter, hch, hreads⟩

/-! ## A sample -/

/-- The sample as it is read after a claim. -/
def Job.claimedSample : Job :=
  { Job.sample with
    status := .dequeued
    started := some .epoch
    attempts := 1
    events := [⟨.epoch, .enqueued, ""⟩, ⟨.epoch, .dequeued, ""⟩] }

theorem sample_toJob : (claimedRow .sample .epoch).toJob = .ok .claimedSample := by
  have hstamp : Row.readStamp (Stamp.ofInstant .epoch) = .ok .epoch := by rfl
  exact Row.toJob_of_reads
    { id := Row.read_id _
      name := rfl
      label := rfl
      data := Row.read_data (by rfl)
      status := rfl
      created := hstamp
      available := hstamp
      started := by rfl
      ended := rfl
      finished := rfl
      attempts := rfl
      events := Row.read_events _
      result := rfl
      error := rfl
      reason := rfl }

end JobQueue
