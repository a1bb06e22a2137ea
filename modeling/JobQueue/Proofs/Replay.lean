import JobQueue.Proofs.Progress
import JobQueue.Proofs.Reading
import JobQueue.Proofs.Stamps
import Mathlib.Data.List.Chain

/-!
# JobQueue.Proofs.Replay

The events of a row tell all that its columns say.

- `Log.Legal` says that events are a way through the statuses: enqueued and claimed by
  turns, and at the end perhaps a terminal status after a claim.
- `Row.Replays` says that columns are what events amount to: the status that was
  entered last, how often the job was claimed, and when what happened.
- The row of a new job replays its one event (`audited_ofJob`). Each change adds an
  event and sets the columns accordingly (`Row.Replays.concat`).
- The log is read as its settled events, which amount to the same columns
  (`Row.Replays.settled`).
-/

namespace JobQueue

/-! ## What events amount to -/

namespace Log

/-- Events that begin with the insertion, each of which may follow the one before. -/
structure Legal (es : List Event) : Prop where
  head : es.head?.map Event.status = some .enqueued
  chain : es.IsChain fun d e => d.status.mayFollow e.status

/-- How often the job was claimed. -/
def attempts (es : List Event) : Nat := es.countP fun e => e.status == .dequeued

/-- When the job was claimed for the last time. -/
def started? (es : List Event) : Option Instant :=
  (es.filter fun e => e.status == .dequeued).getLast?.map Event.timestamp

/-- When the job was done, if it is. -/
def finished? (es : List Event) : Option Instant :=
  (es.getLast?.filter fun e => e.status.isTerminal).map Event.timestamp

end Log

/-- The columns of a row are what the events amount to. -/
structure Row.Replays (r : Row) (es : List Event) : Prop where
  legal : Log.Legal es
  /-- The status is that of the last event. -/
  status : es.getLast?.map (fun e => ofStatus e.status) = some r.status
  /-- Claims count the attempts. -/
  attempts : r.attempts = Log.attempts es
  /-- The first event is the insertion. -/
  created : es.head?.map (fun e => ofInstant e.timestamp) = some r.created
  /-- The last claim is the start. -/
  started : r.started = ofInstant? (Log.started? es)
  /-- A terminal event is the last one. -/
  finished : r.finished = ofInstant? (Log.finished? es)
  /-- The last event of a failed job has its error. -/
  error : r.hasStatus .failed → es.getLast?.map (fun e => Column.text e.reason) = some r.error
  /-- The last event of a cancelled job has its reason. -/
  reason : r.hasStatus .cancelled → es.getLast?.map (fun e => Column.text e.reason) = some r.reason

/-- The column of an instant is that of the settled one. -/
theorem Row.ofInstant_settled (t : Instant) : ofInstant t.settled = ofInstant t :=
  congrArg Column.text (Stamp.ofInstant_settled t)

theorem Row.ofInstant?_settled (t : Option Instant) :
    ofInstant? (t.map Instant.settled) = ofInstant? t := by
  cases t with
  | none => rfl
  | some t => exact Row.ofInstant_settled t

/-! ## One more event -/

namespace Log

variable {es : List Event} {d e : Event}

theorem attempts_concat (es : List Event) (e : Event) :
    attempts (es ++ [e]) = attempts es + if e.status == .dequeued then 1 else 0 := by
  rw [attempts, List.countP_append, List.countP_singleton, attempts]

theorem started?_concat (es : List Event) (e : Event) :
    started? (es ++ [e]) = if e.status == .dequeued then some e.timestamp else started? es := by
  rw [started?, List.filter_append, List.filter_singleton, started?]
  cases e.status == .dequeued with
  | true => simp
  | false => simp

theorem finished?_concat (es : List Event) (e : Event) :
    finished? (es ++ [e]) = if e.status.isTerminal then some e.timestamp else none := by
  rw [finished?, List.getLast?_concat, Option.filter_some]
  split <;> rfl

theorem finished?_eq_none (hlast : es.getLast? = some d) (hd : d.status.isTerminal = false) :
    finished? es = none := by
  rw [finished?, hlast, Option.filter_some, if_neg (by simp [hd])]
  rfl

theorem Legal.concat (h : Legal es) (hlast : es.getLast? = some d)
    (hfollow : d.status.mayFollow e.status) : Legal (es ++ [e]) where
  head := by
    rw [List.head?_append_of_ne_nil _ (by rintro rfl; simp at hlast)]
    exact h.head
  chain := by
    refine List.isChain_append.mpr ⟨h.chain, .singleton e, fun x hx y hy => ?_⟩
    rw [Option.mem_def, hlast] at hx
    rw [Option.mem_def, List.head?_cons] at hy
    cases hx
    cases hy
    exact hfollow

end Log

namespace Row.Replays

variable {r r' : Row} {es : List Event} {d e : Event}

/-- The last event of a row has its status. -/
theorem exists_last (h : r.Replays es) {t : Status} (ht : r.status = ofStatus t) :
    ∃ d, es.getLast? = some d ∧ d.status = t := by
  obtain ⟨d, hlast, hstatus⟩ := Option.map_eq_some_iff.mp h.status
  exact ⟨d, hlast, ofStatus_inj.mp (hstatus.trans ht)⟩

/-- A change that adds an event sets the columns that go with it. -/
theorem concat (h : r.Replays es) (he : r.Enters r' e) (hcreated : r'.created = r.created) :
    r'.Replays (es ++ [e]) := by
  obtain ⟨t, ht, hfollows⟩ := he.follows
  obtain ⟨d, hlast, rfl⟩ := h.exists_last ht
  have hne : es ≠ [] := by
    rintro rfl
    simp at hlast
  have hopen : d.status.isTerminal = false := by
    cases hd : d.status <;> first | rfl | simp [hd, Status.mayFollow] at hfollows
  constructor
  · exact h.legal.concat hlast hfollows
  · rw [List.getLast?_concat, Option.map_some, he.status]
  · rw [he.attempts, h.attempts, Log.attempts_concat]
    split <;> simp
  · rw [List.head?_append_of_ne_nil _ hne, h.created, hcreated]
  · rw [he.started, h.started, Log.started?_concat]
    split <;> rfl
  · rw [he.finished, h.finished, Log.finished?_eq_none hlast hopen, Log.finished?_concat]
    split <;> rfl
  · intro hfailed
    rw [List.getLast?_concat, Option.map_some,
      he.error ((hasStatus_of_status he.status _).mp hfailed)]
  · intro hcancelled
    rw [List.getLast?_concat, Option.map_some,
      he.reason ((hasStatus_of_status he.status _).mp hcancelled)]

/-! ## Settled events -/

theorem legal_settled (h : Log.Legal es) : Log.Legal (es.map Event.settled) where
  head := by
    rw [List.head?_map, Option.map_map]
    exact h.head
  chain := (List.isChain_map Event.settled).mpr h.chain

/-- Settled events amount to the same columns. -/
theorem settled (h : r.Replays es) : r.Replays (es.map Event.settled) := by
  have hstarted : Log.started? (es.map Event.settled) =
      (Log.started? es).map Instant.settled := by
    rw [Log.started?, List.filter_map, List.getLast?_map, Option.map_map, Log.started?,
      Option.map_map]
    rfl
  have hfinished : Log.finished? (es.map Event.settled) =
      (Log.finished? es).map Instant.settled := by
    rw [Log.finished?, List.getLast?_map, Option.filter_map, Option.map_map, Log.finished?,
      Option.map_map]
    rfl
  constructor
  · exact legal_settled h.legal
  · rw [List.getLast?_map, Option.map_map]
    exact h.status
  · rw [h.attempts, Log.attempts, Log.attempts, List.countP_map]
    rfl
  · rw [List.head?_map, Option.map_map, ← h.created]
    simp only [Function.comp_def, Event.settled, ofInstant_settled]
  · rw [hstarted, ofInstant?_settled, h.started]
  · rw [hfinished, ofInstant?_settled, h.finished]
  · rw [List.getLast?_map, Option.map_map]
    exact h.error
  · rw [List.getLast?_map, Option.map_map]
    exact h.reason

end Row.Replays

/-! ## Rows -/

/-- A row whose events are read from its column, and amount to its other columns. -/
def Row.Audited (r : Row) : Prop := ∃ es, r.events = .text (Log.text es) ∧ r.Replays es

/-- The row of a new job has one event. -/
theorem audited_ofJob {j : Job} (hj : j.IsNew) : (Row.ofJob j).Audited := by
  refine ⟨[⟨j.created, .enqueued, ""⟩], by rw [hj]; rfl, ?_⟩
  have hstatus := Row.status_ofJob hj
  constructor
  · exact ⟨rfl, .singleton _⟩
  · rw [hstatus]
    rfl
  · rw [hj]
    rfl
  · rfl
  · rw [hj]
    rfl
  · rw [hj]
    rfl
  · simp [Row.hasStatus_of_status hstatus]
  · simp [Row.hasStatus_of_status hstatus]

/-- Every change adds an event, and sets the columns as the event says. -/
theorem audited_of_change {c : Call} {r r' : Row} (h : Change c r r') (hr : r.Audited) :
    r'.Audited := by
  obtain ⟨es, hevents, hreplays⟩ := hr
  obtain ⟨e, he⟩ := h.enters
  have happended := he.events
  rw [Row.appended_text hevents, Option.some.injEq] at happended
  exact ⟨es ++ [e], happended.symm, hreplays.concat he h.same.2.2.2.2⟩

/-- Rows stay audited, whatever is called. -/
theorem audited_after {cs : List Call} (hcs : AllNew cs) {s : Store} (hk : Keyed s.rows)
    (hs : ∀ r ∈ s.rows, r.Audited) : ∀ r ∈ (s.after cs).rows, r.Audited :=
  rows_after (fun _ hj => audited_ofJob hj) (fun _ _ _ h hr => audited_of_change h hr) hcs hk hs

/-- In a row that there is after any calls, a log can be read that amounts to the columns. -/
theorem log_replays {cs : List Call} (hcs : AllNew cs) {r : Row}
    (hr : r ∈ (Store.empty.after cs).rows) :
    ∃ text es, r.events = .text text ∧ Log.parse text = .ok es ∧ r.Replays es := by
  obtain ⟨es, hevents, hreplays⟩ :=
    audited_after hcs keyed_empty (fun _ h => absurd h List.not_mem_nil) r hr
  exact ⟨Log.text es, es.map Event.settled, hevents, Log.parse_text es, hreplays.settled⟩

/-- For instance of a job that was cancelled. -/
theorem log_replays_sample : ∃ r ∈ (Store.empty.after
      (lifeCalls .sample .epoch (.cancelled "no such address") .epoch)).rows,
    r.status = Row.ofStatus .cancelled ∧
      ∃ text es, r.events = .text text ∧ Log.parse text = .ok es ∧ r.Replays es := by
  obtain ⟨r, hafter, -, hstatus⟩ :=
    life sample_isNew sample_available (.cancelled "no such address") .epoch
  have hr : r ∈ (Store.empty.after
      (lifeCalls .sample .epoch (.cancelled "no such address") .epoch)).rows := by
    rw [hafter]
    exact List.mem_singleton_self r
  exact ⟨r, hr, hstatus, log_replays (allNew_life sample_isNew _ _ _) hr⟩

end JobQueue
