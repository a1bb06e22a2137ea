import JobQueue.Proofs.Identity
import JobQueue.Proofs.Storing

/-!
# JobQueue.Proofs.RoundTrip

A job as a document, and what is read from it.

- `Format.Restores` says what is read from the document that a value is written as. Texts,
  numbers and statuses are restored as they were, instants as the settled ones, and options and
  lists as their items are.
- The members of a record are found under their keys, whatever the order of the object
  (`object_eq_obj`), so a record is read field by field (`readRecord_object`).
- A job is restored but for its instants, which are settled, and for one result: null is read
  as if there were none (`decode_encode`).
-/

namespace JobQueue

namespace Json

/-! ## Objects -/

theorem lookup_cons (key k : String) (v : Json) (ms : List (String × Json)) :
    ((k, v) :: ms).lookup key = if key = k then some v else ms.lookup key := by
  rw [List.lookup_cons]
  by_cases h : key = k
  · rw [if_pos h, beq_iff_eq.mpr h]
  · rw [if_neg h, beq_eq_false_iff_ne.mpr h]

theorem lookup_of_not_mem {key : String} {ms : List (String × Json)}
    (h : key ∉ ms.map Prod.fst) : ms.lookup key = none := by
  refine List.lookup_eq_none_iff.mpr fun m hm => ?_
  rw [bne_iff_ne]
  exact fun heq => h (heq ▸ List.mem_map_of_mem hm)

/-- The member that was set last is found, and the others are found as before. -/
theorem lookup_setMember (key k : String) (v : Json) (ms : List (String × Json)) :
    (setMember k v ms).lookup key = if key = k then some v else ms.lookup key := by
  induction ms with
  | nil => rw [setMember, lookup_cons]
  | cons m ms ih =>
      obtain ⟨k', w⟩ := m
      rw [setMember]
      split
      · rw [lookup_cons]
      · split
        · next heq =>
            subst heq
            rw [lookup_cons, lookup_cons]
            split <;> rfl
        · next hne =>
            rw [lookup_cons, ih, lookup_cons]
            by_cases hkey : key = k
            · rw [if_pos hkey, if_neg (hkey ▸ hne), if_pos hkey]
            · rw [if_neg hkey, if_neg hkey]

theorem mem_setMember {k : String} {v : Json} {ms : List (String × Json)} {m : String × Json}
    (h : m ∈ setMember k v ms) : m = (k, v) ∨ m ∈ ms := by
  induction ms with
  | nil => exact .inl (List.mem_singleton.mp h)
  | cons n ms ih =>
      obtain ⟨k', w⟩ := n
      rw [setMember] at h
      split at h
      · exact List.mem_cons.mp h
      · split at h
        · exact (List.mem_cons.mp h).imp_right (List.mem_cons_of_mem _)
        · rcases List.mem_cons.mp h with rfl | h
          · exact .inr List.mem_cons_self
          · exact (ih h).imp_right (List.mem_cons_of_mem _)

/-- Where no key is given twice, the members that are set one after the other are found under
their keys, and there are no others. -/
theorem foldl_setMember_eq {members : List (String × Json)} (acc : List (String × Json))
    (hkeys : (members.map Prod.fst).Nodup) :
    (∀ key, (members.foldl (fun acc m => setMember m.1 m.2 acc) acc).lookup key =
      (members.lookup key).or (acc.lookup key)) ∧
    ∀ m ∈ members.foldl (fun acc m => setMember m.1 m.2 acc) acc, m ∈ members ∨ m ∈ acc := by
  induction members generalizing acc with
  | nil => exact ⟨fun _ => rfl, fun m hm => .inr hm⟩
  | cons m members ih =>
      obtain ⟨k, v⟩ := m
      obtain ⟨hk, hkeys⟩ := List.nodup_cons.mp hkeys
      obtain ⟨hlookup, hmem⟩ := ih (setMember k v acc) hkeys
      refine ⟨fun key => ?_, fun n hn => ?_⟩
      · rw [List.foldl_cons, hlookup, lookup_setMember, lookup_cons]
        by_cases hkey : key = k
        · subst hkey
          rw [if_pos rfl, if_pos rfl, lookup_of_not_mem hk]
          rfl
        · rw [if_neg hkey, if_neg hkey]
      · rcases hmem n hn with hn | hn
        · exact .inl (List.mem_cons_of_mem _ hn)
        · rcases mem_setMember hn with rfl | hn
          · exact .inl List.mem_cons_self
          · exact .inr hn

/-- Where no key is given twice, an object has just the given members, under their keys. -/
theorem object_eq_obj {members : List (String × Json)} (hkeys : (members.map Prod.fst).Nodup) :
    ∃ ms, object members = .obj ms ∧ (∀ key, ms.lookup key = members.lookup key) ∧
      ∀ m ∈ ms, m ∈ members := by
  obtain ⟨hlookup, hmem⟩ := foldl_setMember_eq [] hkeys
  refine ⟨_, rfl, fun key => ?_, fun m hm => (hmem m hm).resolve_right List.not_mem_nil⟩
  rw [hlookup, List.lookup_nil, Option.or_none]

end Json

namespace Format

/-! ## Single values -/

/-- A value is written as a document, from which the other one is read. -/
structure Restores {α : Type} (f : Format α) (a : α) (v : Json) (b : α) : Prop where
  write : f.write a = .ok v
  read : f.read v = .ok b

theorem restores_string (s : String) : string.Restores s (.str s) s := ⟨rfl, rfl⟩

theorem restores_document (v : Json) : document.Restores v v v := ⟨rfl, rfl⟩

theorem restores_parsed {α : Type} {name expected : String} {parse : String → Except String α}
    {text : α → String} {a b : α} (h : parse (text a) = .ok b) :
    (parsed name expected parse text).Restores a (.str (text a)) b :=
  ⟨rfl, by simp only [parsed, h]; rfl⟩

theorem restores_u32 (n : UInt32) : u32.Restores n (.int n.toNat) n := by
  have hlt := n.toNat_lt
  refine ⟨rfl, ?_⟩
  have hwhole : readWhole "u32" 0 (2 ^ 32 - 1) (.int n.toNat) = .ok (n.toNat : Int) :=
    if_pos ⟨by omega, by omega⟩
  simp only [u32, whole, hwhole, Except.map, Int.toNat_natCast, UInt32.ofNat_toNat]

/-! ## Compounds -/

section

variable {α : Type} {f : Format α} {doc : α → Json} {back : α → α}

/-- What is not null is read as a value. -/
theorem read_option_of_ne_null (f : Format α) {v : Json} (h : v ≠ .null) :
    (option f).read v = (f.read v).map some := by
  cases v with
  | null => exact absurd rfl h
  | _ => rfl

/-- A value or nothing, where no value is written as null. -/
theorem restores_option (h : ∀ a, f.Restores a (doc a) (back a)) (hnull : ∀ a, doc a ≠ .null)
    (o : Option α) : (option f).Restores o (.optional doc o) (o.map back) := by
  cases o with
  | none => exact ⟨rfl, rfl⟩
  | some a =>
      refine ⟨(h a).write, ?_⟩
      rw [Json.optional, read_option_of_ne_null f (hnull a), (h a).read]
      rfl

theorem mapM_write (h : ∀ a, f.Restores a (doc a) (back a)) (as : List α) :
    as.mapM f.write = .ok (as.map doc) := by
  induction as with
  | nil => rfl
  | cons a as ih =>
      rw [List.mapM_cons, (h a).write, ok_bind, ih]
      rfl

theorem mapM_read (h : ∀ a, f.Restores a (doc a) (back a)) (as : List α) :
    (as.map doc).mapM f.read = .ok (as.map back) := by
  induction as with
  | nil => rfl
  | cons a as ih =>
      rw [List.map_cons, List.mapM_cons, (h a).read, ok_bind, ih]
      rfl

/-- Values in a row. -/
theorem restores_list (h : ∀ a, f.Restores a (doc a) (back a)) (as : List α) :
    (list f).Restores as (.arr (as.map doc)) (as.map back) := by
  refine ⟨?_, mapM_read h as⟩
  change (as.mapM f.write >>= fun vs => .ok (Json.arr vs)) = _
  rw [mapM_write h, ok_bind]

end

/-! ## Records -/

/-- The fields of a record fit its members, in the same order. -/
abbrev Fits (fields : List FieldCheck) (members : List (String × Json)) : Prop :=
  List.Forall₂ (fun c m => c.1 = m.1 ∧ c.2 m.2 = .ok ()) fields members

theorem check_of_read {α : Type} {name : String} {f : Format α} {v : Json} {a : α}
    (h : f.read v = .ok a) : (check name f).1 = name ∧ (check name f).2 v = .ok () :=
  ⟨rfl, congrArg (Except.map fun _ => ()) h⟩

/-- Members that fit their fields have no faults. -/
theorem checkMembers_eq_ok {fields : List FieldCheck} {ms : List (String × Json)}
    (h : ∀ m ∈ ms, ∀ fits, fields.lookup m.1 = some fits → fits m.2 = .ok ()) :
    checkMembers fields ms = .ok () := by
  induction ms with
  | nil => rfl
  | cons m ms ih =>
      obtain ⟨k, v⟩ := m
      have hrest := ih fun n hn => h n (List.mem_cons_of_mem _ hn)
      rw [checkMembers]
      split
      · next fits hfits =>
          rw [h _ List.mem_cons_self fits hfits, ok_bind, hrest]
      · exact hrest

/-- The field of the key of a member is the one that it fits. -/
theorem Fits.check_eq_ok {fields : List FieldCheck} {members : List (String × Json)}
    (h : Fits fields members) (hkeys : (members.map Prod.fst).Nodup) :
    ∀ m ∈ members, ∀ fits, fields.lookup m.1 = some fits → fits m.2 = .ok () := by
  induction h with
  | nil => exact fun m hm => absurd hm List.not_mem_nil
  | @cons c n fields members hc _ ih =>
      obtain ⟨k, f⟩ := c
      obtain ⟨hk, hkeys⟩ := List.nodup_cons.mp hkeys
      obtain ⟨rfl, hok⟩ := hc
      intro m hm fits hfits
      rw [List.lookup_cons] at hfits
      rcases List.mem_cons.mp hm with rfl | hm
      · rw [beq_self_eq_true] at hfits
        cases hfits
        exact hok
      · have hne : (m.1 == n.1) = false :=
          beq_eq_false_iff_ne.mpr fun heq => hk (heq ▸ List.mem_map_of_mem hm)
        rw [hne] at hfits
        exact ih hkeys m hm fits hfits

/-- A record is read from the object of its members, each found under its key. -/
theorem readRecord_object {α : Type} {fields : List FieldCheck}
    {members : List (String × Json)} (hfits : Fits fields members)
    (hkeys : (members.map Prod.fst).Nodup) :
    ∃ ms, (∀ key, ms.lookup key = members.lookup key) ∧
      ∀ (name : String) (build : Source → Except Mismatch α),
        readRecord name fields build (.object members) = build (.members ms) := by
  obtain ⟨ms, hobject, hlookup, hmem⟩ := Json.object_eq_obj hkeys
  refine ⟨ms, hlookup, fun name build => ?_⟩
  rw [hobject, readRecord, checkMembers_eq_ok fun m hm => hfits.check_eq_ok hkeys m (hmem m hm),
    ok_bind]

namespace Source

variable {α : Type} {f : Format α} {a : α} {v : Json} {ms : List (String × Json)} {name : String}

theorem field_of_lookup (index : Nat) (hv : ms.lookup name = some v) (h : f.read v = .ok a) :
    (Source.members ms).field index name f = .ok a := by
  rw [field, hv]
  exact h

theorem fieldOr_of_lookup (index : Nat) (default : α) (hv : ms.lookup name = some v)
    (h : f.read v = .ok a) : (Source.members ms).fieldOr index name f default = .ok a := by
  rw [fieldOr, hv]
  exact h

end Source

end Format

/-! ## Instants, identities and statuses -/

theorem restores_id (id : JobId) : JobId.format.Restores id (.str id.text) id :=
  Format.restores_parsed (by rw [JobId.parse_text]; rfl)

/-- The text of an instant is that of the settled one. -/
theorem restores_instant (t : Instant) :
    Instant.format.Restores t (.str (Rfc3339.text t)) t.settled :=
  Format.restores_parsed (by rw [Instant.parse, Rfc3339.parse_text]; rfl)

theorem restores_status (s : Status) : Status.format.Restores s (.str s.name) s :=
  ⟨rfl, by cases s <;> rfl⟩

/-! ## Events -/

namespace Event

/-- The members of the document of an event. -/
def members (e : Event) : List (String × Json) :=
  [("timestamp", .str (Rfc3339.text e.timestamp)), ("status", .str e.status.name),
    ("reason", .str e.reason)]

theorem restores_event (e : Event) : format.Restores e (.object e.members) e.settled := by
  have hfits : Format.Fits [Format.check "timestamp" Instant.format,
      Format.check "status" Status.format, Format.check "reason" Format.string] e.members :=
    .cons (Format.check_of_read (restores_instant e.timestamp).read)
      (.cons (Format.check_of_read (restores_status e.status).read)
        (.cons (Format.check_of_read (Format.restores_string e.reason).read) .nil))
  refine ⟨rfl, ?_⟩
  obtain ⟨ms, hlookup, hread⟩ := Format.readRecord_object hfits
    (show ["timestamp", "status", "reason"].Nodup by decide)
  simp only [format]
  rw [hread, Format.Source.field_of_lookup 0 (hlookup _) (restores_instant e.timestamp).read,
    ok_bind, Format.Source.field_of_lookup 1 (hlookup _) (restores_status e.status).read, ok_bind,
    Format.Source.fieldOrDefault, Format.Source.fieldOr_of_lookup 2 _ (hlookup _)
      (Format.restores_string e.reason).read]
  rfl

end Event

/-! ## Jobs -/

namespace Job

/-- The members of the document of a job. -/
def members (j : Job) : List (String × Json) :=
  let instant := Json.optional fun t => Json.str (Rfc3339.text t)
  [("id", .str j.id.text), ("name", .str j.name), ("label", .str j.label), ("data", j.data),
    ("status", .str j.status.name), ("created", .str (Rfc3339.text j.created)),
    ("available", .str (Rfc3339.text j.available)), ("started", instant j.started),
    ("ended", instant j.ended), ("finished", instant j.finished),
    ("attempts", .int j.attempts.toNat),
    ("events", .arr (j.events.map fun e => .object e.members)),
    ("result", .optional (fun v => v) j.result), ("error", .optional .str j.error),
    ("reason", .optional .str j.reason)]

/-- A job without a result that is null. -/
def withoutNull (j : Job) : Job :=
  { j with
    result := match j.result with
      | some .null => none
      | result => result }

theorem withoutNull_eq_iff {j : Job} : j.withoutNull = j ↔ j.result ≠ some .null := by
  rw [withoutNull]
  split
  · next h =>
      refine iff_of_false (fun heq => ?_) (fun hne => hne h)
      rw [← heq] at h
      cases h
  · next h => exact iff_of_true rfl h

/-- A job as it is read from its document. -/
def decoded (j : Job) : Job :=
  { j.withoutNull with
    created := j.created.settled
    available := j.available.settled
    started := j.started.map Instant.settled
    ended := j.ended.map Instant.settled
    finished := j.finished.map Instant.settled
    events := j.events.map Event.settled }

theorem map_settled_eq_iff {t : Option Instant} :
    t.map Instant.settled = t ↔ ∀ x ∈ t, x.OnMinute := by
  cases t with
  | none => exact ⟨fun _ x hx => absurd hx (Option.not_mem_none x), fun _ => rfl⟩
  | some t =>
      rw [Option.map_some, Option.some.injEq, Instant.settled_eq_iff]
      exact ⟨fun hon x hx => Option.some.inj hx ▸ hon, fun hon => hon t rfl⟩

/-- A document tells a job exactly if its result is not null and its instants are settled. -/
theorem decoded_eq_iff {j : Job} : j.decoded = j ↔ j.result ≠ some .null ∧ j.OnMinute := by
  constructor
  · intro heq
    have hresult : j.decoded.result = j.result := congrArg Job.result heq
    refine ⟨fun hnull => ?_, ?_⟩
    · rw [hnull, decoded, withoutNull] at hresult
      simp only [hnull] at hresult
      cases hresult
    · exact
        { created := Instant.settled_eq_iff.mp (congrArg Job.created heq)
          available := Instant.settled_eq_iff.mp (congrArg Job.available heq)
          started := map_settled_eq_iff.mp (congrArg Job.started heq)
          ended := map_settled_eq_iff.mp (congrArg Job.ended heq)
          finished := map_settled_eq_iff.mp (congrArg Job.finished heq)
          events := Event.map_settled_eq_iff.mp (congrArg Job.events heq) }
  · rintro ⟨hnull, hon⟩
    rw [decoded, withoutNull_eq_iff.mpr hnull, Instant.settled_of_onMinute hon.created,
      Instant.settled_of_onMinute hon.available, map_settled_eq_iff.mpr hon.started,
      map_settled_eq_iff.mpr hon.ended, map_settled_eq_iff.mpr hon.finished,
      Event.map_settled_eq_iff.mpr hon.events]

theorem restores_instant? (t : Option Instant) :
    (Format.option Instant.format).Restores t
      (.optional (fun t => .str (Rfc3339.text t)) t) (t.map Instant.settled) :=
  Format.restores_option restores_instant (fun _ => nofun) t

theorem restores_string? (s : Option String) :
    (Format.option .string).Restores s (.optional .str s) s := by
  have h := Format.restores_option Format.restores_string (fun _ => nofun) s
  rwa [Option.map_id'] at h

theorem restores_events (es : List Event) :
    (Format.list Event.format).Restores es (.arr (es.map fun e => .object e.members))
      (es.map Event.settled) :=
  Format.restores_list Event.restores_event es

/-- A result that is null is read as if there were none. -/
theorem read_result (j : Job) :
    (Format.option .document).read (.optional (fun v => v) j.result) =
      .ok j.withoutNull.result := by
  rw [withoutNull]
  cases j.result with
  | none => rfl
  | some v => cases v <;> rfl

theorem fits_members (j : Job) : Format.Fits fieldChecks j.members :=
  .cons (Format.check_of_read (restores_id j.id).read) <|
  .cons (Format.check_of_read (Format.restores_string j.name).read) <|
  .cons (Format.check_of_read (Format.restores_string j.label).read) <|
  .cons (Format.check_of_read (Format.restores_document j.data).read) <|
  .cons (Format.check_of_read (restores_status j.status).read) <|
  .cons (Format.check_of_read (restores_instant j.created).read) <|
  .cons (Format.check_of_read (restores_instant j.available).read) <|
  .cons (Format.check_of_read (restores_instant? j.started).read) <|
  .cons (Format.check_of_read (restores_instant? j.ended).read) <|
  .cons (Format.check_of_read (restores_instant? j.finished).read) <|
  .cons (Format.check_of_read (Format.restores_u32 j.attempts).read) <|
  .cons (Format.check_of_read (restores_events j.events).read) <|
  .cons (Format.check_of_read (read_result j)) <|
  .cons (Format.check_of_read (restores_string? j.error).read) <|
  .cons (Format.check_of_read (restores_string? j.reason).read) .nil

theorem toMembers_eq (j : Job) : j.toMembers = .ok j.members := by
  rw [toMembers, (restores_events j.events).write]
  rfl

open Format.Source in
/-- The fields of a job are found among its members. -/
theorem ofSource_members {j : Job} {ms : List (String × Json)}
    (hlookup : ∀ key, ms.lookup key = j.members.lookup key) :
    ofSource (.members ms) = .ok j.decoded := by
  rw [ofSource,
    field_of_lookup 0 (hlookup _) (restores_id j.id).read, ok_bind,
    field_of_lookup 1 (hlookup _) (Format.restores_string j.name).read, ok_bind,
    field_of_lookup 2 (hlookup _) (Format.restores_string j.label).read, ok_bind,
    field_of_lookup 3 (hlookup _) (Format.restores_document j.data).read, ok_bind,
    field_of_lookup 4 (hlookup _) (restores_status j.status).read, ok_bind,
    field_of_lookup 5 (hlookup _) (restores_instant j.created).read, ok_bind,
    field_of_lookup 6 (hlookup _) (restores_instant j.available).read, ok_bind,
    fieldOr_of_lookup 7 _ (hlookup _) (restores_instant? j.started).read, ok_bind,
    fieldOr_of_lookup 8 _ (hlookup _) (restores_instant? j.ended).read, ok_bind,
    fieldOr_of_lookup 9 _ (hlookup _) (restores_instant? j.finished).read, ok_bind,
    field_of_lookup 10 (hlookup _) (Format.restores_u32 j.attempts).read, ok_bind,
    field_of_lookup 11 (hlookup _) (restores_events j.events).read, ok_bind,
    fieldOr_of_lookup 12 _ (hlookup _) (read_result j), ok_bind,
    fieldOr_of_lookup 13 _ (hlookup _) (restores_string? j.error).read, ok_bind,
    fieldOr_of_lookup 14 _ (hlookup _) (restores_string? j.reason).read, ok_bind]
  rfl

/-- Every job has a document, and from it the job is read with settled instants, but for a
result that is null. -/
theorem decode_encode (j : Job) :
    ∃ v, format.encode j = .ok v ∧ format.decode v = .ok j.decoded := by
  obtain ⟨ms, hlookup, hread⟩ := Format.readRecord_object j.fits_members
    (show (fieldChecks.map Prod.fst).Nodup by decide)
  refine ⟨.object j.members, ?_, ?_⟩
  · simp only [Format.encode, format, toMembers_eq]
    rfl
  · simp only [Format.decode, format]
    rw [hread, ofSource_members hlookup]
    rfl

end Job

/-- Every job has a document, and just the jobs whose result is not null and whose instants are
settled are read from theirs as they were. A result that is null is read as if there were none,
and an instant within a leap second that ends no minute as the one in the next second. -/
theorem encoded_job (j : Job) :
    ∃ v, Job.format.encode j = .ok v ∧ Job.format.decode v = .ok j.decoded ∧
      (Job.format.decode v = .ok j ↔ j.result ≠ some .null ∧ j.OnMinute) := by
  obtain ⟨v, hv, hread⟩ := j.decode_encode
  refine ⟨v, hv, hread, ?_⟩
  rw [hread, Except.ok.injEq, Job.decoded_eq_iff]

/-- For instance, not the parcel with a result that is null. -/
theorem parcel_not_restored :
    ¬ ∃ v, Job.format.encode .parcel = .ok v ∧ Job.format.decode v = .ok .parcel := by
  rintro ⟨v, hv, hread⟩
  obtain ⟨w, hw, hnull⟩ := Job.parcel.decode_encode
  cases hv.symm.trans hw
  have heq : Job.parcel.decoded = .parcel := Except.ok.inj (hnull.symm.trans hread)
  exact (Job.decoded_eq_iff.mp heq).1 rfl

end JobQueue
