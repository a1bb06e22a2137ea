import JobQueue.Proofs.Documents
import JobQueue.Proofs.History
import JobQueue.Proofs.Loading
import JobQueue.Proofs.Record
import JobQueue.Proofs.Replay
import JobQueue.Proofs.Stamps

/-!
# JobQueue.Proofs.Readable

Which rows can be read.

- Every column is written as what it is read as (`Row.Typed`), whatever is called, so a row
  is read unless its payload or its result is no document, or there were too many attempts
  to count (`exists_toJob`).
- Payloads that can be stored (`Json.Storable`) are documents, and each claim counts one
  attempt. So claimed rows are read, up to the greatest number of attempts
  (`exists_toJob_of_claim`).
-/

namespace JobQueue

/-! ## Single columns -/

namespace Json

/-- A document that can be stored: its text is read back. -/
def Storable (v : Json) : Prop := v.depth ≤ depthLimit ∧ v.Fits

theorem Storable.exists_parse {v : Json} (h : v.Storable) : ∃ w, parse v.render = .ok w :=
  Json.exists_parse h.1 h.2

end Json

namespace Stamp

open Text Rfc3339

theorem nul_not_mem_chars {t : Instant} (h : t.HasStamp) : '\x00' ∉ chars t := by
  have hpadded (width n : Nat) : '\x00' ∉ padded width n := fun hmem =>
    absurd (isDigit_of_mem_padded hmem) (by decide)
  simp [chars, civilText, yearText_of_hasStamp h, hpadded]

/-- A stamp is read as a whole. -/
theorem readable_ofInstant (t : Instant) : Column.readable (ofInstant t) = ofInstant t := by
  obtain ⟨hstamp, -⟩ := t.hasStamp_stamped
  rw [← ofInstant_stamped, ofInstant_of_hasStamp hstamp]
  refine Column.readable_of_not_mem ?_
  rw [String.toList_ofList]
  exact nul_not_mem_chars hstamp

end Stamp

namespace Row

theorem readStamp_ofInstant (t : Instant) : readStamp (Stamp.ofInstant t) = .ok t.stamped := by
  rw [readStamp, Stamp.parse_ofInstant]
  rfl

/-- An instant is read as what its stamp keeps. -/
theorem read_instant (index : Nat) (t : Instant) :
    (readRequired index (ofInstant t) >>= readStamp) = .ok t.stamped := by
  rw [ofInstant, readRequired_text (Stamp.readable_ofInstant t), ok_bind, readStamp_ofInstant]

/-- An instant that may be missing is read as what its stamp keeps. -/
theorem read_instant? (index : Nat) (t : Option Instant) :
    readOptional index readStamp (ofInstant? t) = .ok (t.map Instant.stamped) := by
  cases t with
  | none => rfl
  | some t =>
      rw [ofInstant?, Option.map_some, Column.ofOption, readOptional, readText,
        Stamp.readable_ofInstant, ok_bind]
      simp only [readStamp_ofInstant]
      rfl

theorem read_status (t : Status) : (readRequired 4 (ofStatus t) >>= readStatus) = .ok t := by
  cases t <;> rfl

theorem exists_readText (index : Nat) (s : Option String) :
    ∃ t, readText index (.ofOption s) = .ok t := by
  cases s with
  | none => exact ⟨_, rfl⟩
  | some s => exact ⟨_, rfl⟩

theorem exists_readRequired (index : Nat) (s : String) :
    ∃ t, readRequired index (.text s) = .ok t := ⟨_, rfl⟩

/-! ## Rows -/

/-- Columns that are written as what they are read as. -/
structure Typed (r : Row) : Prop where
  name : ∃ s, r.name = .text s
  label : ∃ s, r.label = .text s
  created : ∃ t, r.created = ofInstant t
  available : ∃ t, r.available = ofInstant t
  started : ∃ t, r.started = ofInstant? t
  ended : ∃ t, r.ended = ofInstant? t
  finished : ∃ t, r.finished = ofInstant? t
  result : ∃ v : Option Json, r.result = .ofOption (v.map Json.render)
  error : ∃ s, r.error = .ofOption s
  reason : ∃ s, r.reason = .ofOption s

theorem typed_ofJob (j : Job) : (ofJob j).Typed :=
  ⟨⟨_, rfl⟩, ⟨_, rfl⟩, ⟨_, rfl⟩, ⟨_, rfl⟩, ⟨_, rfl⟩, ⟨_, rfl⟩, ⟨_, rfl⟩, ⟨_, rfl⟩, ⟨_, rfl⟩,
    ⟨_, rfl⟩⟩

/-- Every change writes instants as instants and texts as texts. -/
theorem typed_of_change {c : Call} {r r' : Row} (h : Change c r r') (hr : r.Typed) : r'.Typed := by
  have hsome (t : Instant) : ∃ o, ofInstant t = ofInstant? o := ⟨some t, rfl⟩
  cases h with
  | @claimed _ now _ _ _ eq =>
      obtain ⟨events, -, rfl⟩ := claimed_eq_some eq
      exact { hr with started := hsome now, ended := ⟨none, rfl⟩ }
  | @finished _ _ o now _ _ _ _ eq =>
      obtain ⟨events, -, rfl⟩ := finishedWith_eq_some eq
      cases o with
      | completed v =>
          exact { hr with ended := hsome now, finished := hsome now, result := ⟨some v, rfl⟩ }
      | retry error available =>
          exact { hr with ended := hsome now, error := ⟨some error, rfl⟩, available := ⟨_, rfl⟩ }
      | failed error =>
          exact { hr with ended := hsome now, finished := hsome now, error := ⟨some error, rfl⟩ }
      | cancelled reason =>
          exact { hr with ended := hsome now, finished := hsome now, reason := ⟨some reason, rfl⟩ }
  | @requeued _ _ now _ _ _ eq =>
      obtain ⟨events, -, rfl⟩ := requeued_eq_some eq
      exact { hr with available := ⟨now, rfl⟩ }

/-- A row is read if its payload and its result are documents and its attempts can be
counted. -/
theorem exists_toJob {r : Row} (ht : r.Typed) (hr : r.Recorded) (ha : r.Audited)
    (hid : ∃ id : JobId, r.id = .text id.text)
    (hdata : ∃ v, (readRequired 3 r.data >>= readDocument "data") = .ok v)
    (hresult : ∃ v, readOptional 12 (readDocument "result") r.result = .ok v)
    (hattempts : r.attempts < 2 ^ 32) : ∃ j, r.toJob = .ok j := by
  obtain ⟨id, hid⟩ := hid
  obtain ⟨data, hdata⟩ := hdata
  obtain ⟨result, hresult⟩ := hresult
  obtain ⟨⟨name, hname⟩, ⟨label, hlabel⟩, ⟨created, hcreated⟩, ⟨available, havailable⟩,
    ⟨started, hstarted⟩, ⟨ended, hended⟩, ⟨finished, hfinished⟩, -, ⟨error, herror⟩,
    ⟨reason, hreason⟩⟩ := ht
  obtain ⟨status, hstatus⟩ := hr.status
  obtain ⟨events, hevents, -⟩ := ha
  obtain ⟨nameText, hnameText⟩ := exists_readRequired 1 name
  obtain ⟨labelText, hlabelText⟩ := exists_readRequired 2 label
  obtain ⟨errorText, herrorText⟩ := exists_readText 13 error
  obtain ⟨reasonText, hreasonText⟩ := exists_readText 14 reason
  have hnonneg := hr.attempts_nonneg
  refine ⟨⟨id, nameText, labelText, data, status, created.stamped, available.stamped,
    started.map Instant.stamped, ended.map Instant.stamped, finished.map Instant.stamped,
    .ofNat r.attempts.toNat, events.map Event.settled, result, errorText, reasonText⟩,
    toJob_of_reads ?_⟩
  exact
    { id := by rw [hid, read_id]
      name := by rw [hname, hnameText]
      label := by rw [hlabel, hlabelText]
      data := hdata
      status := by rw [hstatus, read_status]
      created := by rw [hcreated, read_instant]
      available := by rw [havailable, read_instant]
      started := by rw [hstarted, read_instant?]
      ended := by rw [hended, read_instant?]
      finished := by rw [hfinished, read_instant?]
      attempts := by
        rw [UInt32.toNat_ofNat_of_lt' (show r.attempts.toNat < 2 ^ 32 by omega)]
        omega
      events := by rw [hevents, read_events]
      result := hresult
      error := by rw [herror, herrorText]
      reason := by rw [hreason, hreasonText] }

end Row

/-! ## Payloads -/

/-- Calls that insert jobs with payloads that can be stored. -/
def AllStorable (cs : List Call) : Prop := ∀ c ∈ cs, ∀ j, c.job? = some j → j.data.Storable

theorem AllStorable.concat {cs : List Call} {c : Call} (hcs : AllStorable cs)
    (hc : ∀ j, c.job? = some j → j.data.Storable) : AllStorable (cs ++ [c]) :=
  jobs_concat hcs hc

theorem sample_storable : Job.sample.data.Storable := ⟨Nat.zero_le _, trivial⟩

/-- A row that holds a payload that can be stored. -/
def Row.HoldsStorable (r : Row) : Prop := ∃ v : Json, r.data = .text v.render ∧ v.Storable

theorem Row.HoldsStorable.exists_read {r : Row} (h : r.HoldsStorable) :
    ∃ v, (readRequired 3 r.data >>= readDocument "data") = .ok v := by
  obtain ⟨v, hdata, hv⟩ := h
  obtain ⟨w, hw⟩ := hv.exists_parse
  refine ⟨w, ?_⟩
  rw [hdata, readRequired_text (Column.readable_of_not_mem (Json.nul_not_mem_render v)), ok_bind,
    readDocument, hw]
  rfl

/-! ## Rows after any calls -/

/-- The columns of a row go together, and its log amounts to them. -/
theorem consistent_after {cs : List Call} (hcs : AllNew cs) {r : Row}
    (hr : r ∈ (Store.empty.after cs).rows) : r.Recorded ∧ r.Audited :=
  ⟨recorded_after hcs keyed_empty (fun _ h => absurd h List.not_mem_nil) r hr,
    audited_after hcs keyed_empty (fun _ h => absurd h List.not_mem_nil) r hr⟩

/-- Rows hold what they are read as. -/
theorem typed_after (cs : List Call) : ∀ r ∈ (Store.empty.after cs).rows, r.Typed :=
  rows_after_of_inserted (fun _ _ j _ => Row.typed_ofJob j)
    (fun _ _ _ h hr => Row.typed_of_change h hr) keyed_empty fun _ h => absurd h List.not_mem_nil

/-- No change touches a payload. -/
theorem holdsStorable_after {cs : List Call} (hdata : AllStorable cs) :
    ∀ r ∈ (Store.empty.after cs).rows, r.HoldsStorable :=
  rows_after_of_inserted (fun c hc j hj => ⟨j.data, rfl, hdata c hc j hj⟩)
    (fun _ _ _ h ⟨v, hv, hs⟩ => ⟨v, h.same.2.2.2.1.trans hv, hs⟩) keyed_empty
    fun _ h => absurd h List.not_mem_nil

/-! ## Claims -/

/-- Calls that claim no job as often as attempts can be counted. -/
def FewClaims (cs : List Call) : Prop :=
  ∀ id, (Store.empty.history cs).countP (·.claims id) < 2 ^ 32 - 1

theorem FewClaims.concat {cs : List Call} {c : Call} (hcs : FewClaims cs)
    (hc : c.isClaim = false) : FewClaims (cs ++ [c]) := by
  intro id
  rw [countP_claims_of_not_isClaim hc]
  exact hcs id

theorem fewClaims_of_length {cs : List Call} (h : cs.length < 2 ^ 32 - 1) : FewClaims cs :=
  fun _ => Nat.lt_of_le_of_lt List.countP_le_length (by rwa [Store.length_history])

/-- A claim is answered, unless too many came before it: what it has claimed can be read. -/
theorem exists_toJob_of_claim {cs : List Call} (hcs : AllNew cs) (hdata : AllStorable cs)
    (hclaims : FewClaims cs) {name : String} {now : Instant} {r r' : Row}
    (hr : r ∈ (Store.empty.after cs).rows)
    (hch : Change (.claim name now) r r') : ∃ j, r'.toJob = .ok j := by
  have hkeyed := keyed_after cs keyed_empty
  obtain ⟨id, hid⟩ := hkeyed.ids r hr
  obtain ⟨hold, hlog⟩ := consistent_after hcs hr
  have hrecorded := recorded_of_change hch hold
  have haudited := audited_of_change hch hlog
  obtain ⟨v, hv, hstorable⟩ := holdsStorable_after hdata r hr
  have hle := attempts_le_countP_claims hcs ((rowOf?_eq_some_iff hkeyed).mpr ⟨hr, hid⟩)
  have hlt := hclaims id
  have hattempts := hch.attempts_eq
  refine Row.exists_toJob (Row.typed_of_change hch (typed_after cs r hr)) hrecorded haudited
    ⟨id, hch.id_eq.trans hid⟩
    (Row.HoldsStorable.exists_read ⟨v, hch.same.2.2.2.1.trans hv, hstorable⟩) ?_ ?_
  · rw [hrecorded.result_eq_null hch.status_of_claim (by decide)]
    exact ⟨none, rfl⟩
  · rw [hattempts, Call.isClaim, if_pos rfl]
    omega

end JobQueue
