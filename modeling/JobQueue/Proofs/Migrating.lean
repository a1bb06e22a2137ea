import JobQueue.Store.Schema

/-!
# JobQueue.Proofs.Migrating

What a run of the migrations leaves, wherever it stops.

- A run is a script of single statements (`Schema.script`), of which some first part succeeds: it
  stops before the first statement that fails, and leaves what those before it have made
  (`migrate_stops`).
- A statement that has succeeded is done, stays done, and changes nothing when it is run again,
  unless it enters a row (`done_of_run`, `Done.grows`, `run_of_done`).
- A migration is entered after all of its definitions (`exists_script_of_enter`), and only if it is
  above all versions that the ledger had. Constraints of the ledger may keep its row out
  (`KeepsOut`, `mem_or_keepsOut`). So a second run changes nothing, unless the ledger now takes such
  a row (`migrate_again_iff`).
- A ledger in order has all that the migrations define once a run has succeeded, also where an
  earlier run was cut off (`IsOrderly.complete`). The whole is `migrations_settle`.
-/

namespace JobQueue

/-! ## Objects -/

namespace Schema

variable {s : Schema} {n m : String} {k : ObjectKind}

theorem relation?_add_of_some {k' : ObjectKind} (h : s.relation? m = some k') :
    (s.add n k).relation? m = some k' := by
  rw [relation?] at h
  rw [relation?, add, List.findSome?_append, h, Option.some_or]

theorem relation?_add_of_ne (h : n ≠ m) : (s.add n k).relation? m = s.relation? m := by
  simp [relation?, add, List.findSome?_append, h]

theorem relation?_add_index (target : String) :
    (s.add n (.index target)).relation? m = s.relation? m := by
  simp [relation?, add, List.findSome?_append]

theorem relation?_add_table (columns : List String) :
    ((s.add n (.table columns)).relation? n).isSome := by
  simp [relation?, add, List.findSome?_append]

theorem hasIndex_add (h : s.hasIndex m) : (s.add n k).hasIndex m := by
  rw [hasIndex, add, List.any_append, Bool.or_eq_true]
  exact .inl h

theorem hasIndex_add_index (target : String) : (s.add n (.index target)).hasIndex n := by
  simp [hasIndex, add, ObjectKind.isIndex]

theorem exists_of_relation? (h : (s.relation? n).isSome) : ∃ o ∈ s.objects, o.name = n := by
  obtain ⟨k, hk⟩ := Option.isSome_iff_exists.mp h
  obtain ⟨o, ho, heq⟩ := List.exists_of_findSome?_eq_some hk
  split at heq
  · next hname => exact ⟨o, ho, hname⟩
  · cases heq

theorem exists_of_hasIndex (h : s.hasIndex n) : ∃ o ∈ s.objects, o.name = n := by
  obtain ⟨o, ho, heq⟩ := List.any_eq_true.mp h
  rw [Bool.and_eq_true, beq_iff_eq] at heq
  exact ⟨o, ho, heq.1⟩

end Schema

namespace Definition

variable {d e : Definition} {s s' : Schema}

/-- The name of what is defined. -/
def name : Definition → String
  | .table name _ => name
  | .index name _ _ => name

/-- What is defined. -/
def kind : Definition → ObjectKind
  | .table _ columns => .table columns
  | .index _ target _ => .index target

/-- What is defined is there, or something that stands for it. -/
def IsPresent (s : Schema) : Definition → Prop
  | .table name _ => (s.relation? name).isSome
  | .index name target _ =>
      (∃ columns, s.relation? target = some (.table columns)) ∧ s.relation? name = none ∧
        s.hasIndex name

/-- What is there is not added again. -/
theorem apply_of_isPresent (h : d.IsPresent s) : d.apply s = .ok s := by
  cases d with
  | table name columns =>
      obtain ⟨k, hk⟩ := Option.isSome_iff_exists.mp h
      simp only [apply, hk]
  | index name target columns =>
      obtain ⟨⟨present, htarget⟩, hname, hindex⟩ := h
      simp only [apply, htarget, hname, hindex, Option.isSome_none, Bool.false_eq_true, if_false,
        if_true]

/-- What is defined is there already, or is added where there is nothing of its name. -/
theorem apply_cases (h : d.apply s = .ok s') :
    s' = s ∧ d.IsPresent s ∨
      s' = s.add d.name d.kind ∧ s.relation? d.name = none ∧ s.hasIndex d.name = false ∧
        d.IsPresent s' := by
  cases d with
  | table name columns =>
      simp only [apply] at h
      split at h
      · next k hk =>
          cases h
          exact .inl ⟨rfl, Option.isSome_of_eq_some hk⟩
      · next hnone =>
          split at h
          · cases h
          · next hindex =>
              cases h
              exact .inr ⟨rfl, hnone, eq_false_of_ne_true hindex,
                Schema.relation?_add_table columns⟩
  | index name target columns =>
      simp only [apply] at h
      split at h
      · next present htarget =>
          split at h
          · cases h
          · next hname =>
              rw [Bool.not_eq_true, Option.isSome_eq_false_iff, Option.isNone_iff_eq_none] at hname
              split at h
              · next hindex =>
                  cases h
                  exact .inl ⟨rfl, ⟨present, htarget⟩, hname, hindex⟩
              · next hindex =>
                  split at h
                  · cases h
                  · cases h
                    refine .inr ⟨rfl, hname, eq_false_of_ne_true hindex,
                      ⟨present, ?_⟩, ?_, Schema.hasIndex_add_index target⟩
                    · rw [Schema.relation?_add_index, htarget]
                    · rw [Schema.relation?_add_index, hname]
      · cases h
      · cases h

/-- What is there stays where something of a new name is added. -/
theorem IsPresent.add (h : d.IsPresent s) {n : String} (k : ObjectKind)
    (hindex : s.hasIndex n = false) : d.IsPresent (s.add n k) := by
  cases d with
  | table name columns =>
      obtain ⟨k', hk⟩ := Option.isSome_iff_exists.mp h
      exact Option.isSome_of_eq_some (Schema.relation?_add_of_some hk)
  | index name target columns =>
      obtain ⟨⟨present, htarget⟩, hname, hthere⟩ := h
      have hne : n ≠ name := by
        rintro rfl
        rw [hindex] at hthere
        cases hthere
      refine ⟨⟨present, Schema.relation?_add_of_some htarget⟩, ?_, Schema.hasIndex_add hthere⟩
      rw [Schema.relation?_add_of_ne hne, hname]

theorem IsPresent.exists_object (h : d.IsPresent s) : ∃ o ∈ s.objects, o.name = d.name := by
  cases d with
  | table name columns => exact Schema.exists_of_relation? h
  | index name target columns => exact Schema.exists_of_hasIndex h.2.2

end Definition

/-! ## Statements -/

/-- A statement of a run of the migrations. -/
inductive Statement where
  | define (d : Definition)
  | readVersion
  | enter (e : LedgerEntry)

/-- The schema after a statement. -/
def Statement.run (s : Schema) : Statement → Except SchemaFault Schema
  | .define d => d.apply s
  | .readVersion => s.version.map fun _ => s
  | .enter e => s.record e

/-- The row that a statement enters. -/
def Statement.entry? : Statement → Option LedgerEntry
  | .enter e => some e
  | _ => none

/-- The rows of a ledger once others were to be entered, one after the other. -/
def Constraints.rowsAfter (c : Constraints) (es news : List LedgerEntry) : List LedgerEntry :=
  news.foldl (fun es e => if c es e = .taken then es ++ [e] else es) es

/-- What a statement that succeeds keeps. -/
structure Schema.Grows (s s' : Schema) : Prop where
  relation {n : String} {k : ObjectKind} : s.relation? n = some k → s'.relation? n = some k
  present {d : Definition} : d.IsPresent s → d.IsPresent s'
  objects : s.objects ⊆ s'.objects
  entries : s.entries <+: s'.entries
  constraints : s'.constraints = s.constraints

namespace Schema

variable {s s' s'' : Schema} {e : LedgerEntry}

theorem Grows.refl (s : Schema) : s.Grows s :=
  ⟨id, id, fun _ => id, List.prefix_refl s.entries, rfl⟩

theorem Grows.trans (h : s.Grows s') (h' : s'.Grows s'') : s.Grows s'' where
  relation hk := h'.relation (h.relation hk)
  present hd := h'.present (h.present hd)
  objects := List.Subset.trans h.objects h'.objects
  entries := h.entries.trans h'.entries
  constraints := h'.constraints.trans h.constraints

/-- Columns of the ledger stay. -/
theorem Grows.ledgerColumns (h : s.Grows s') (hne : s.ledgerColumns ≠ []) :
    s'.ledgerColumns = s.ledgerColumns := by
  cases hledger : s.relation? ledgerName with
  | none => simp [Schema.ledgerColumns, hledger] at hne
  | some k => rw [Schema.ledgerColumns, Schema.ledgerColumns, hledger, h.relation hledger]

theorem grows_of_apply {d : Definition} (h : d.apply s = .ok s') : s.Grows s' := by
  rcases Definition.apply_cases h with ⟨rfl, -⟩ | ⟨rfl, -, hindex, -⟩
  · exact .refl _
  · exact ⟨relation?_add_of_some, fun hd => hd.add _ hindex, List.subset_append_left _ _,
      List.prefix_refl _, rfl⟩

/-- The ledger is a table with a name for each row. -/
def IsWritable (s : Schema) : Prop :=
  ∃ columns, s.relation? ledgerName = some (.table columns) ∧ columns.contains "name"

theorem IsWritable.record (h : s.IsWritable) (hout : s.constraints s.entries e = .passedOver) :
    s.record e = .ok s := by
  obtain ⟨columns, hledger, hname⟩ := h
  simp only [Schema.record, ledgerColumns, hledger, hname, hout, if_true]

/-- A row is entered, unless the ledger passes it over. -/
theorem record_cases (h : s.record e = .ok s') : s.IsWritable ∧
    (s.constraints s.entries e = .taken ∧ s' = { s with entries := s.entries ++ [e] } ∨
      s.constraints s.entries e = .passedOver ∧ s' = s) := by
  unfold record at h
  split at h
  · cases h
  · next hview =>
      split at h
      · next hname =>
          have hwritable : s.IsWritable := by
            rw [ledgerColumns] at hname
            split at hname
            · next columns hledger => exact ⟨columns, hledger, hname⟩
            · next columns hledger => exact absurd hledger (hview columns)
            · cases hname
          split at h
          · next htaken =>
              cases h
              exact ⟨hwritable, .inl ⟨htaken, rfl⟩⟩
          · next hout =>
              cases h
              exact ⟨hwritable, .inr ⟨hout, rfl⟩⟩
          · cases h
      · cases h

theorem grows_of_record (h : s.record e = .ok s') : s.Grows s' := by
  rcases (record_cases h).2 with ⟨-, rfl⟩ | ⟨-, rfl⟩
  · refine ⟨id, fun {d} hd => ?_, fun _ => id, List.prefix_append _ _, rfl⟩
    cases d <;> exact hd
  · exact .refl _

/-- The highest version in the ledger, or zero. -/
def highest (s : Schema) : Int := (s.entries.map LedgerEntry.version).max?.getD 0

theorem version_eq (s : Schema) : s.version =
    if s.ledgerColumns.contains "version" then .ok s.highest else .error (.noColumn "version") := by
  rw [version, highest]
  split
  · cases s.entries.map LedgerEntry.version with
    | nil => rfl
    | cons v vs => rw [List.max?_cons', Option.getD_some]
  · rfl

theorem le_highest (h : e ∈ s.entries) : e.version ≤ s.highest := by
  have hv : e.version ∈ s.entries.map LedgerEntry.version := List.mem_map_of_mem h
  obtain ⟨v, hmax⟩ := Option.isSome_iff_exists.mp (List.isSome_max?_of_mem hv)
  rw [highest, hmax, Option.getD_some]
  exact (List.max?_le_iff hmax).mp (Int.le_refl v) _ hv

end Schema

namespace Constraints

variable (c : Constraints)

theorem rowsAfter_append (es news later : List LedgerEntry) :
    c.rowsAfter es (news ++ later) = c.rowsAfter (c.rowsAfter es news) later := List.foldl_append ..

/-- The rows that there are stay, and some of the others are added. -/
theorem exists_rowsAfter (es news : List LedgerEntry) :
    ∃ added, c.rowsAfter es news = es ++ added ∧ added ⊆ news := by
  induction news generalizing es with
  | nil => exact ⟨[], (List.append_nil es).symm, List.Subset.refl _⟩
  | cons e news ih =>
      rw [rowsAfter, List.foldl_cons]
      split
      · obtain ⟨added, heq, hadded⟩ := ih (es ++ [e])
        exact ⟨e :: added, by rw [← rowsAfter, heq, List.append_assoc, List.singleton_append],
          List.cons_subset_cons e hadded⟩
      · obtain ⟨added, heq, hadded⟩ := ih es
        exact ⟨added, heq, List.subset_cons_of_subset e hadded⟩

end Constraints

namespace Statement

variable {s s' : Schema} {x y : Statement}

theorem run_readVersion (s : Schema) : readVersion.run s =
    if s.ledgerColumns.contains "version" then .ok s else .error (.noColumn "version") := by
  rw [run, Schema.version_eq]
  split <;> rfl

/-- A statement enters its own row, if the ledger takes it, or none. -/
theorem run_cases (h : x.run s = .ok s') : s.Grows s' ∧
    s'.entries = s.constraints.rowsAfter s.entries x.entry?.toList := by
  cases x with
  | define d =>
      refine ⟨Schema.grows_of_apply h, ?_⟩
      rcases Definition.apply_cases h with ⟨rfl, -⟩ | ⟨rfl, -⟩ <;> rfl
  | readVersion =>
      rw [run_readVersion] at h
      split at h
      · cases h
        exact ⟨.refl s, rfl⟩
      · cases h
  | enter e =>
      refine ⟨Schema.grows_of_record h, ?_⟩
      rcases (Schema.record_cases h).2 with ⟨htaken, rfl⟩ | ⟨hout, rfl⟩
      · exact (if_pos htaken).symm
      · exact (if_neg (by rw [hout]; nofun)).symm

/-- A statement has nothing left to do but to enter a row. -/
def Done (s : Schema) : Statement → Prop
  | .define d => d.IsPresent s
  | .readVersion => s.ledgerColumns.contains "version"
  | .enter _ => s.IsWritable

/-- A statement that has succeeded is done. -/
theorem done_of_run (h : x.run s = .ok s') : x.Done s' := by
  cases x with
  | define d =>
      rcases Definition.apply_cases h with ⟨rfl, hpresent⟩ | ⟨-, -, -, hpresent⟩ <;> exact hpresent
  | readVersion =>
      rw [run_readVersion] at h
      split at h
      · next hversion =>
          cases h
          exact hversion
      · cases h
  | enter e =>
      obtain ⟨columns, hledger, hname⟩ := (Schema.record_cases h).1
      exact ⟨columns, (run_cases (x := .enter e) h).1.relation hledger, hname⟩

/-- What is done stays done. -/
theorem Done.grows (h : x.Done s) (hgrows : s.Grows s') : x.Done s' := by
  cases x with
  | define d => exact hgrows.present h
  | readVersion =>
      have hne : s.ledgerColumns ≠ [] := fun hnil => by simp [Done, hnil] at h
      rw [Done, hgrows.ledgerColumns hne]
      exact h
  | enter e =>
      obtain ⟨columns, hledger, hname⟩ := h
      exact ⟨columns, hgrows.relation hledger, hname⟩

/-- What is done changes nothing when it is run again, if no row is taken. -/
theorem run_of_done (h : x.Done s)
    (hout : ∀ e, x = .enter e → s.constraints s.entries e = .passedOver) : x.run s = .ok s := by
  cases x with
  | define d => exact Definition.apply_of_isPresent h
  | readVersion =>
      rw [run_readVersion]
      exact if_pos h
  | enter e => exact Schema.IsWritable.record h (hout e rfl)

end Statement

/-- Statements run one after the other, up to the first that fails. It tells the fault. -/
inductive Stops : Schema → List Statement → Option SchemaFault → Schema → Prop where
  | done (s : Schema) : Stops s [] none s
  | failed {s : Schema} {x : Statement} {xs : List Statement} {f : SchemaFault}
      (h : x.run s = .error f) : Stops s (x :: xs) (some f) s
  | step {s s' t : Schema} {x : Statement} {xs : List Statement} {fault : Option SchemaFault}
      (h : x.run s = .ok s') (rest : Stops s' xs fault t) : Stops s (x :: xs) fault t

namespace Stops

variable {s s' t : Schema} {xs ys : List Statement} {fault : Option SchemaFault}

theorem append (h : Stops s xs none s') (hys : Stops s' ys fault t) :
    Stops s (xs ++ ys) fault t := by
  generalize hnone : none = o at h
  induction h with
  | done => exact hys
  | failed => cases hnone
  | step h _ ih => exact .step h (ih hys hnone)

theorem append_failed {f : SchemaFault} (h : Stops s xs (some f) s') (ys : List Statement) :
    Stops s (xs ++ ys) (some f) s' := by
  generalize hsome : some f = o at h
  induction h with
  | done => cases hsome
  | failed h => exact .failed h
  | step h _ ih => exact .step h (ih hsome)

/-- What has run is a first part that succeeds. What is left is nothing, or begins with the
statement that fails. -/
theorem split (h : Stops s xs fault t) : ∃ ran rest, xs = ran ++ rest ∧ Stops s ran none t ∧
    (fault = none → rest = []) ∧
    ∀ f, fault = some f → ∃ x rest', rest = x :: rest' ∧ x.run t = .error f := by
  induction h with
  | done s => exact ⟨[], [], rfl, .done s, fun _ => rfl, nofun⟩
  | @failed s x xs f h =>
      refine ⟨[], x :: xs, rfl, .done s, nofun, fun f' hf => ⟨x, xs, rfl, ?_⟩⟩
      rw [h, Option.some.inj hf]
  | step h _ ih =>
      obtain ⟨ran, rest, rfl, hran, hdone, hfailed⟩ := ih
      exact ⟨_ :: ran, rest, rfl, .step h hran, hdone, hfailed⟩

theorem grows (h : Stops s xs fault t) : s.Grows t := by
  induction h with
  | done s => exact .refl s
  | failed => exact .refl _
  | step h _ ih => exact (Statement.run_cases h).1.trans ih

/-- After a run that succeeds, all of its statements are done. -/
theorem all_done (h : Stops s xs none t) : ∀ x ∈ xs, x.Done t := by
  generalize hnone : none = o at h
  induction h with
  | done => exact fun _ h => absurd h List.not_mem_nil
  | failed => cases hnone
  | step h hrest ih =>
      rw [List.forall_mem_cons]
      exact ⟨(Statement.done_of_run h).grows hrest.grows, ih hnone⟩

/-- A run changes nothing where no statement does. -/
theorem eq_of_idle (h : Stops s xs fault t) (hidle : ∀ x ∈ xs, x.run s = .ok s) :
    fault = none ∧ t = s := by
  induction h with
  | done => exact ⟨rfl, rfl⟩
  | failed h =>
      rw [hidle _ List.mem_cons_self] at h
      cases h
  | step h _ ih =>
      rw [List.forall_mem_cons] at hidle
      obtain rfl := Except.ok.inj (hidle.1.symm.trans h)
      exact ih hidle.2

/-- What has run one after the other has run up to any place of it. -/
theorem of_append (h : Stops s (xs ++ ys) none t) : ∃ u, Stops s xs none u ∧ Stops u ys none t := by
  induction xs generalizing s with
  | nil => exact ⟨s, .done s, h⟩
  | cons x xs ih =>
      cases h with
      | step hrun hrest =>
          obtain ⟨u, hxs, hys⟩ := ih hrest
          exact ⟨u, .step hrun hxs, hys⟩

/-- What has run has entered its rows as far as the ledger takes them. -/
theorem entries_eq (h : Stops s xs none t) :
    t.entries = s.constraints.rowsAfter s.entries (xs.filterMap Statement.entry?) := by
  generalize hnone : none = o at h
  induction h with
  | done => rfl
  | failed => cases hnone
  | @step s s' t x xs _ hrun _ ih =>
      obtain ⟨hgrows, hone⟩ := Statement.run_cases hrun
      rw [ih hnone, hone, hgrows.constraints, ← Constraints.rowsAfter_append]
      cases hentry : x.entry? with
      | none => rw [List.filterMap_cons_none hentry]; rfl
      | some e => rw [List.filterMap_cons_some hentry]; rfl

/-- A run adds only rows that it enters. -/
theorem exists_added (h : Stops s xs none t) : ∃ added, t.entries = s.entries ++ added ∧
    ∀ e ∈ added, .enter e ∈ xs := by
  obtain ⟨added, hrows, hadded⟩ :=
    s.constraints.exists_rowsAfter s.entries (xs.filterMap Statement.entry?)
  refine ⟨added, h.entries_eq.trans hrows, fun e he => ?_⟩
  obtain ⟨x, hx, hentry⟩ := List.mem_filterMap.mp (hadded he)
  cases x with
  | enter e' =>
      obtain rfl : e' = e := Option.some.inj hentry
      exact hx
  | define d => cases hentry
  | readVersion => cases hentry

end Stops

/-! ## Scripts -/

/-- The statements of a migration: its definitions, and then its row. -/
def Migration.script (m : Migration) (fill : Int → String) : List Statement :=
  m.definitions.map .define ++ [.enter (m.entry fill)]

namespace Schema

/-- The migrations that are not yet applied. -/
def pending (s : Schema) : List Migration := migrations.filter (s.highest < ·.version)

/-- The statements of a run of the migrations. -/
def script (s : Schema) (fill : Int → String) : List Statement :=
  .define (.table ledgerName ledgerLayout) :: .readVersion ::
    (s.pending.flatMap (·.script fill) ++ [.readVersion])

/-- The answer of a run tells the fault of a statement. -/
def Tells (answer : Except DatabaseError Unit) : Option SchemaFault → Prop
  | none => answer = .ok ()
  | some f => ∃ during, answer = .error (migrationError during f)

variable {s t : Schema} {fill : Int → String} {m : Migration}

theorem stops_applyAll (s : Schema) (ds : List Definition) :
    (∃ t, s.applyAll ds = (.ok (), t) ∧ Stops s (ds.map .define) none t) ∨
      ∃ f t, s.applyAll ds = (.error f, t) ∧ Stops s (ds.map .define) (some f) t := by
  induction ds generalizing s with
  | nil => exact .inl ⟨s, rfl, .done s⟩
  | cons d ds ih =>
      rw [applyAll]
      cases hd : d.apply s with
      | error f => exact .inr ⟨f, s, rfl, .failed hd⟩
      | ok s' =>
          rcases ih s' with ⟨t, heq, hstops⟩ | ⟨f, t, heq, hstops⟩
          · exact .inl ⟨t, heq, .step hd hstops⟩
          · exact .inr ⟨f, t, heq, .step hd hstops⟩

theorem stops_applyAbove (s : Schema) (fill : Int → String) (current : Int) (ms : List Migration) :
    ∃ fault, Stops s ((ms.filter (current < ·.version)).flatMap (·.script fill)) fault
      (s.applyAbove fill current ms).2 ∧ Tells (s.applyAbove fill current ms).1 fault := by
  induction ms generalizing s with
  | nil => exact ⟨none, .done s, rfl⟩
  | cons m ms ih =>
      rw [applyAbove]
      by_cases hm : current < m.version
      · rw [if_pos hm, List.filter_cons_of_pos (by simpa using hm), List.flatMap_cons,
          Migration.script]
        rcases stops_applyAll s m.definitions with ⟨t, heq, hstops⟩ | ⟨f, t, heq, hstops⟩ <;>
          rw [heq] <;> dsimp only
        · cases hrecord : t.record (m.entry fill) with
          | error f =>
              have hentry : Stops t [.enter (m.entry fill)] (some f) t := .failed hrecord
              exact ⟨some f, (hstops.append hentry).append_failed _, _, rfl⟩
          | ok t' =>
              have hentry : Stops t [.enter (m.entry fill)] none t' := .step hrecord (.done t')
              obtain ⟨fault, hrest, htells⟩ := ih t'
              exact ⟨fault, (hstops.append hentry).append hrest, htells⟩
        · exact ⟨some f, (hstops.append_failed _).append_failed _, _, rfl⟩
      · rw [if_neg hm, List.filter_cons_of_neg (by simpa using hm)]
        exact ih s

theorem entries_of_ledger
    (h : (Definition.table ledgerName ledgerLayout).apply s = .ok t) : t.entries = s.entries := by
  rcases Definition.apply_cases h with ⟨rfl, -⟩ | ⟨rfl, -⟩ <;> rfl

/-- A run of the migrations runs the statements of its script, up to the first that fails. -/
theorem migrate_stops (s : Schema) (fill : Int → String) :
    ∃ fault, Stops s (s.script fill) fault (s.migrate fill).2 ∧ Tells (s.migrate fill).1 fault := by
  rw [migrate]
  cases hledger : (Definition.table ledgerName ledgerLayout).apply s with
  | error f => exact ⟨some f, .failed hledger, _, rfl⟩
  | ok t =>
      have hpending : t.highest = s.highest := by
        rw [highest, highest, entries_of_ledger hledger]
      have hread := Statement.run_readVersion t
      dsimp only
      rw [version_eq]
      by_cases hversion : t.ledgerColumns.contains "version"
      · rw [if_pos hversion] at hread ⊢
        dsimp only
        obtain ⟨fault, hstops, htells⟩ := stops_applyAbove t fill t.highest migrations
        generalize t.applyAbove fill t.highest migrations = x at hstops htells ⊢
        obtain ⟨answer, t'⟩ := x
        rw [hpending] at hstops
        cases fault with
        | none =>
            cases htells
            have hlast := Statement.run_readVersion t'
            dsimp only
            rw [version_eq]
            by_cases hagain : t'.ledgerColumns.contains "version"
            · rw [if_pos hagain] at hlast ⊢
              exact ⟨none, .step hledger (.step hread (hstops.append (.step hlast (.done t')))), rfl⟩
            · rw [if_neg hagain] at hlast ⊢
              exact ⟨_, .step hledger (.step hread (hstops.append (.failed hlast))), _, rfl⟩
        | some f =>
            obtain ⟨during, rfl⟩ := htells
            exact ⟨some f, .step hledger (.step hread (hstops.append_failed _)), during, rfl⟩
      · rw [if_neg hversion] at hread ⊢
        exact ⟨_, .step hledger (.failed hread), _, rfl⟩

/-! ## Single migrations -/

theorem mem_script {x : Statement} :
    x ∈ m.script fill ↔ (∃ d ∈ m.definitions, x = .define d) ∨ x = .enter (m.entry fill) := by
  simp [Migration.script, eq_comm]

theorem eq_of_enter_mem_script {e : LedgerEntry} (h : .enter e ∈ m.script fill) :
    e = m.entry fill := by
  rcases mem_script.mp h with ⟨d, -, hd⟩ | heq
  · cases hd
  · exact Statement.enter.inj heq

/-- A part of the statements of a migration that holds its row holds all of them. -/
theorem eq_nil_of_enter {e : LedgerEntry} {ran rest : List Statement}
    (h : m.script fill = ran ++ rest) (he : .enter e ∈ ran) : rest = [] := by
  rcases rest.eq_nil_or_concat with hnil | ⟨rest', x, rfl⟩
  · exact hnil
  · rw [Migration.script, List.concat_eq_append, ← List.append_assoc] at h
    have hdefine : m.definitions.map .define = ran ++ rest' := (List.append_inj' h rfl).1
    have hmem : .enter e ∈ m.definitions.map Statement.define := by
      rw [hdefine]
      exact List.mem_append_left _ he
    obtain ⟨d, -, hd⟩ := List.mem_map.mp hmem
    cases hd

/-- In a part of a script that has run, the row of a migration comes after its definitions. -/
theorem exists_script_of_enter {ms : List Migration} {ran rest : List Statement} {e : LedgerEntry}
    (h : ms.flatMap (·.script fill) ++ [.readVersion] = ran ++ rest) (he : .enter e ∈ ran) :
    ∃ m ∈ ms, e = m.entry fill ∧ ∃ pre post, ran = pre ++ m.script fill ++ post := by
  induction ms generalizing ran with
  | nil =>
      have heq : [Statement.readVersion] = ran ++ rest := h
      have hmem : .enter e ∈ [Statement.readVersion] := by
        rw [heq]
        exact List.mem_append_left rest he
      cases List.mem_singleton.mp hmem
  | cons k ms ih =>
      rw [List.flatMap_cons, List.append_assoc] at h
      rcases List.append_eq_append_iff.mp h with ⟨later, rfl, hlater⟩ | ⟨left, hscript, -⟩
      · rcases List.mem_append.mp he with he | he
        · exact ⟨k, List.mem_cons_self, eq_of_enter_mem_script he, [], later, rfl⟩
        · obtain ⟨m, hm, heq, pre, post, rfl⟩ := ih hlater he
          exact ⟨m, List.mem_cons_of_mem k hm, heq, k.script fill ++ pre, post, by simp⟩
      · obtain rfl := eq_nil_of_enter hscript he
        rw [List.append_nil] at hscript
        rw [← hscript] at he
        exact ⟨k, List.mem_cons_self, eq_of_enter_mem_script he, [], [], by rw [← hscript]; simp⟩

theorem exists_script {ran rest : List Statement} {e : LedgerEntry}
    (h : s.script fill = ran ++ rest) (he : .enter e ∈ ran) :
    ∃ m ∈ s.pending, e = m.entry fill ∧ ∃ pre post, ran = pre ++ m.script fill ++ post := by
  rw [script] at h
  -- the two statements before the migrations enter nothing
  match ran, h with
  | [], _ => cases he
  | [x], h =>
      rw [List.singleton_append, List.cons.injEq] at h
      cases h.1.trans (List.mem_singleton.mp he).symm
  | x :: y :: ran, h =>
      simp only [List.cons_append, List.cons.injEq] at h
      obtain ⟨rfl, rfl, h⟩ := h
      have he : .enter e ∈ ran := by simpa using he
      obtain ⟨m, hm, heq, pre, post, rfl⟩ := exists_script_of_enter h he
      exact ⟨m, hm, heq, _ :: _ :: pre, post, rfl⟩

theorem mem_pending : m ∈ s.pending ↔ m ∈ migrations ∧ s.highest < m.version := by
  rw [pending, List.mem_filter, decide_eq_true_iff]

theorem mem_script_iff {x : Statement} :
    x ∈ s.script fill ↔ x = .define (.table ledgerName ledgerLayout) ∨ x = .readVersion ∨
      ∃ m ∈ s.pending, x ∈ m.script fill := by
  simp only [script, List.mem_cons, List.mem_append, List.mem_flatMap, List.not_mem_nil, or_false]
  grind

/-! ## Rows that are kept out -/

/-- In a run the ledger passes over the row of a migration. -/
def KeepsOut (s : Schema) (fill : Int → String) (m : Migration) : Prop :=
  ∃ before after, s.pending = before ++ m :: after ∧
    s.constraints (s.constraints.rowsAfter s.entries (before.map (·.entry fill))) (m.entry fill) =
      .passedOver

theorem filterMap_define (ds : List Definition) :
    (ds.map Statement.define).filterMap Statement.entry? = [] :=
  List.filterMap_eq_nil_iff.mpr fun x hx => by
    obtain ⟨d, -, rfl⟩ := List.mem_map.mp hx
    rfl

theorem filterMap_script (ms : List Migration) :
    (ms.flatMap (·.script fill)).filterMap Statement.entry? = ms.map (·.entry fill) := by
  induction ms with
  | nil => rfl
  | cons m ms ih =>
      rw [List.flatMap_cons, List.filterMap_append, ih, Migration.script, List.filterMap_append,
        filterMap_define]
      rfl

/-- In a run that succeeds the row of a migration has its turn after those of the migrations
before it. -/
theorem exists_turn {before after : List Migration} (h : Stops s (s.script fill) none t)
    (hpending : s.pending = before ++ m :: after) : ∃ u u', s.Grows u ∧
      u.entries = s.constraints.rowsAfter s.entries (before.map (·.entry fill)) ∧
      u.record (m.entry fill) = .ok u' ∧ u'.Grows t := by
  have hscript : s.script fill =
      (.define (.table ledgerName ledgerLayout) :: .readVersion ::
        (before.flatMap (·.script fill) ++ m.definitions.map .define)) ++
      .enter (m.entry fill) :: (after.flatMap (·.script fill) ++ [.readVersion]) := by
    simp [script, hpending, Migration.script]
  rw [hscript] at h
  obtain ⟨u, hbefore, hlater⟩ := h.of_append
  cases hlater with
  | step hrun hafter =>
      refine ⟨u, _, hbefore.grows, ?_, hrun, hafter.grows⟩
      rw [hbefore.entries_eq, List.filterMap_cons_none rfl, List.filterMap_cons_none rfl,
        List.filterMap_append, filterMap_script, filterMap_define, List.append_nil]

/-- After a run that succeeds the row of each migration is there, unless it was kept out. -/
theorem mem_or_keepsOut (h : Stops s (s.script fill) none t) (hm : m ∈ s.pending) :
    m.entry fill ∈ t.entries ∨ s.KeepsOut fill m := by
  obtain ⟨before, after, hpending⟩ := List.append_of_mem hm
  obtain ⟨u, u', hgrows, hentries, hrun, hlater⟩ := exists_turn h hpending
  rcases (record_cases hrun).2 with ⟨-, rfl⟩ | ⟨hout, rfl⟩
  · exact .inl (hlater.entries.subset (List.mem_append_right _ (List.mem_singleton_self _)))
  · rw [hentries, hgrows.constraints] at hout
    exact .inr ⟨before, after, hpending, hout⟩

theorem version_pairwise : migrations.Pairwise fun m k => m.version < k.version := by decide

/-- The key alone keeps nothing out. -/
theorem not_keepsOut_of_key (hkey : s.constraints = .key) : ¬ s.KeepsOut fill m := by
  rintro ⟨before, after, hpending, hout⟩
  obtain ⟨added, hrows, hadded⟩ :=
    s.constraints.exists_rowsAfter s.entries (before.map (·.entry fill))
  have hlt : ∀ k ∈ before, k.version < m.version := fun k hk => by
    have hpairwise : s.pending.Pairwise fun m k => m.version < k.version :=
      version_pairwise.filter _
    rw [hpending, List.pairwise_append] at hpairwise
    exact hpairwise.2.2 k hk m List.mem_cons_self
  have hnew : ∀ e ∈ s.entries ++ added, e.version < m.version := by
    intro e he
    rcases List.mem_append.mp he with he | he
    · have hm : m ∈ s.pending := hpending ▸ List.mem_append_right _ List.mem_cons_self
      exact Int.lt_of_le_of_lt (le_highest he) (mem_pending.mp hm).2
    · obtain ⟨k, hk, rfl⟩ := List.mem_map.mp (hadded he)
      exact hlt k hk
  rw [hrows, hkey, Constraints.key, Constraints.unique] at hout
  split at hout
  · next hany =>
      obtain ⟨e, he, heq⟩ := List.any_eq_true.mp hany
      exact absurd (beq_iff_eq.mp heq).symm (Int.ne_of_lt (hnew e he))
  · cases hout

/-! ## Runs that come after -/

theorem highest_le {b : Int} (hb : 0 ≤ b) (h : ∀ e ∈ s.entries, e.version ≤ b) :
    s.highest ≤ b := by
  rw [highest]
  cases hmax : (s.entries.map LedgerEntry.version).max? with
  | none => exact hb
  | some v =>
      refine (List.max?_le_iff hmax).mpr fun w hw => ?_
      obtain ⟨e, he, rfl⟩ := List.mem_map.mp hw
      exact h e he

theorem highest_le_of_added {added : List LedgerEntry} (h : t.entries = s.entries ++ added)
    (hadded : ∀ e ∈ added, s.highest < e.version) : s.highest ≤ t.highest := by
  cases added with
  | nil =>
      have hsame : t.highest = s.highest := by rw [highest, highest, h, List.append_nil]
      exact Int.le_of_eq hsame.symm
  | cons e added =>
      have hmem : e ∈ t.entries := h ▸ List.mem_append_right _ List.mem_cons_self
      exact Int.le_trans (Int.le_of_lt (hadded e List.mem_cons_self)) (le_highest hmem)

/-- A run changes nothing where no statement of its script does. -/
theorem migrate_of_idle (h : ∀ x ∈ s.script fill, x.run s = .ok s) :
    s.migrate fill = (.ok (), s) := by
  obtain ⟨fault, hstops, htells⟩ := s.migrate_stops fill
  obtain ⟨rfl, hsame⟩ := hstops.eq_of_idle h
  exact Prod.ext htells hsame

/-- A run that changes nothing has passed over all its rows. -/
theorem passedOver_of_idle (h : s.migrate fill = (.ok (), s)) (hm : m ∈ s.pending) :
    s.constraints s.entries (m.entry fill) = .passedOver := by
  obtain ⟨fault, hstops, htells⟩ := s.migrate_stops fill
  rw [h] at hstops htells
  obtain ⟨before, after, hpending⟩ := List.append_of_mem hm
  cases fault with
  | some f => exact absurd htells.choose_spec nofun
  | none =>
      obtain ⟨u, u', hgrows, -, hrun, hlater⟩ := exists_turn hstops hpending
      have hle := (hlater.entries.trans hgrows.entries).length_le
      rcases (record_cases hrun).2 with ⟨-, rfl⟩ | ⟨hout, rfl⟩
      · rw [List.length_append, List.length_singleton] at hle
        omega
      · rw [← hgrows.constraints, hgrows.entries.eq_of_length_le hlater.entries.length_le]
        exact hout

/-- After a run that succeeds another one changes nothing exactly if it passes over the rows of
all migrations that are left. -/
theorem migrate_again_iff {fill' : Int → String}
    (hdone : ∀ x ∈ s.script fill, x.Done t) (hpending : t.pending ⊆ s.pending) :
    t.migrate fill' = (.ok (), t) ↔
      ∀ m ∈ t.pending, t.constraints t.entries (m.entry fill') = .passedOver := by
  refine ⟨fun hsame m hm => passedOver_of_idle hsame hm, fun hout => ?_⟩
  refine migrate_of_idle fun x hx => ?_
  rcases mem_script_iff.mp hx with rfl | rfl | ⟨m, hm, hmx⟩
  · exact Statement.run_of_done (hdone _ (mem_script_iff.mpr (.inl rfl))) nofun
  · exact Statement.run_of_done (hdone _ (mem_script_iff.mpr (.inr (.inl rfl)))) nofun
  · have hbefore (y : Statement) (hy : y ∈ m.script fill) : y.Done t :=
      hdone y (mem_script_iff.mpr (.inr (.inr ⟨m, hpending hm, hy⟩)))
    rcases mem_script.mp hmx with ⟨d, hd, rfl⟩ | rfl
    · exact Statement.run_of_done (hbefore _ (mem_script.mpr (.inl ⟨d, hd, rfl⟩))) nofun
    · exact IsWritable.record (hbefore _ (mem_script.mpr (.inr rfl))) (hout m hm)

/-! ## Ledgers in order -/

/-- The ledger holds no version above zero, or just the first ones, and what their migrations
define is there. -/
def IsOrderly (s : Schema) : Prop :=
  (∀ e ∈ s.entries, e.version ≤ 0) ∨
    ∃ k : Int, (∀ v, v ∈ s.entries.map LedgerEntry.version ↔ 1 ≤ v ∧ v ≤ k) ∧
      ∀ m ∈ migrations, m.version ≤ k → ∀ d ∈ m.definitions, ∃ o ∈ s.objects, o.name = d.name

/-- The table of jobs and its indexes are there. -/
def HasObjects (s : Schema) : Prop :=
  ∀ n ∈ ["jobs", "idx_jobs_claim", "idx_jobs_identity", "idx_jobs_finished"],
    ∃ o ∈ s.objects, o.name = n

theorem one_le_version : ∀ m ∈ migrations, 1 ≤ m.version := by decide

theorem exists_definition :
    ∀ n ∈ ["jobs", "idx_jobs_claim", "idx_jobs_identity", "idx_jobs_finished"],
      ∃ m ∈ migrations, ∃ d ∈ m.definitions, d.name = n := by decide

theorem exists_version : ∀ v ∈ [1, 2], ∃ m ∈ migrations, m.version = v := by decide

/-- A migration that is not pending where the ledger is in order was applied. -/
theorem IsOrderly.applied (h : s.IsOrderly) (hm : m ∈ migrations) (hpending : m ∉ s.pending) :
    m.version ∈ s.entries.map LedgerEntry.version ∧
      ∀ d ∈ m.definitions, ∃ o ∈ s.objects, o.name = d.name := by
  have hle : m.version ≤ s.highest := Int.not_lt.mp fun hlt => hpending (mem_pending.mpr ⟨hm, hlt⟩)
  have hone := one_le_version m hm
  rcases h with hnone | ⟨k, hversions, hpresent⟩
  · have hzero := highest_le (Int.le_refl 0) hnone
    omega
  · have hhighest : s.highest ≤ max k 0 := highest_le (by omega) fun e he => by
      have hv := (hversions e.version).mp (List.mem_map_of_mem he)
      omega
    have hk : m.version ≤ k := by omega
    exact ⟨(hversions _).mpr ⟨hone, hk⟩, hpresent m hm hk⟩

theorem IsOrderly.complete (h : s.IsOrderly) (hstops : Stops s (s.script fill) none t) :
    t.HasObjects ∧
      ∀ v ∈ [1, 2], v ∈ t.entries.map LedgerEntry.version ∨
        ∃ m ∈ migrations, m.version = v ∧ s.KeepsOut fill m := by
  have happlied : ∀ m ∈ migrations,
      (m.version ∈ t.entries.map LedgerEntry.version ∨ s.KeepsOut fill m) ∧
        ∀ d ∈ m.definitions, ∃ o ∈ t.objects, o.name = d.name := by
    intro m hm
    by_cases hpending : m ∈ s.pending
    · refine ⟨(mem_or_keepsOut hstops hpending).imp_left List.mem_map_of_mem, fun d hd => ?_⟩
      have hscript : .define d ∈ s.script fill :=
        mem_script_iff.mpr (.inr (.inr ⟨m, hpending, mem_script.mpr (.inl ⟨d, hd, rfl⟩)⟩))
      exact Definition.IsPresent.exists_object (hstops.all_done _ hscript)
    · obtain ⟨hversion, hobjects⟩ := h.applied hm hpending
      refine ⟨.inl (List.map_subset _ hstops.grows.entries.subset hversion), fun d hd => ?_⟩
      obtain ⟨o, ho, hname⟩ := hobjects d hd
      exact ⟨o, hstops.grows.objects ho, hname⟩
  refine ⟨fun n hn => ?_, fun v hv => ?_⟩
  · obtain ⟨m, hm, d, hd, rfl⟩ := exists_definition n hn
    exact (happlied m hm).2 d hd
  · obtain ⟨m, hm, rfl⟩ := exists_version v hv
    exact (happlied m hm).1.imp_right fun hout => ⟨m, hm, rfl, hout⟩

/-! ## The main result -/

/-- What a run of the migrations leaves. `ran` are its statements that have succeeded.

- The ledger keeps its rows, and gains some above the highest version that it had, each for a
  migration all of whose statements have succeeded.
- Where the run succeeds, nothing is left of its script. The migrations that are still pending are
  some that the ledger has kept out, and a second run succeeds and changes nothing exactly if it
  passes over all of them once more. Where the run fails, its error is that of the first statement
  that is left.
- From a ledger in order, a run that succeeds leaves all objects and enters both versions but those
  that are kept out, whatever an earlier run that was cut off has left.
- A ledger with its key alone keeps nothing out. -/
theorem migrations_settle (s : Schema) (fill : Int → String) : ∃ ran rest added,
    s.script fill = ran ++ rest ∧ Stops s ran none (s.migrate fill).2 ∧
    (s.migrate fill).2.entries = s.entries ++ added ∧
    (∀ e ∈ added, s.highest < e.version ∧ ∃ m ∈ migrations, e = m.entry fill ∧
      ∃ pre post, ran = pre ++ m.script fill ++ post) ∧
    ((s.migrate fill).1 = .ok () → rest = [] ∧
      (∀ m ∈ (s.migrate fill).2.pending, s.KeepsOut fill m) ∧
      ∀ fill', (s.migrate fill).2.migrate fill' = (.ok (), (s.migrate fill).2) ↔
        ∀ m ∈ (s.migrate fill).2.pending,
          s.constraints (s.migrate fill).2.entries (m.entry fill') = .passedOver) ∧
    (∀ err, (s.migrate fill).1 = .error err → ∃ x rest' f during, rest = x :: rest' ∧
      x.run (s.migrate fill).2 = .error f ∧ err = migrationError during f) ∧
    (s.IsOrderly → (s.migrate fill).1 = .ok () → (s.migrate fill).2.HasObjects ∧
      ∀ v ∈ [1, 2], v ∈ (s.migrate fill).2.entries.map LedgerEntry.version ∨
        ∃ m ∈ migrations, m.version = v ∧ s.KeepsOut fill m) ∧
    (s.constraints = .key → ∀ m, ¬ s.KeepsOut fill m) := by
  obtain ⟨fault, hstops, htells⟩ := s.migrate_stops fill
  generalize s.migrate fill = outcome at hstops htells ⊢
  obtain ⟨answer, t⟩ := outcome
  obtain ⟨ran, rest, hscript, hran, hall, hfirst⟩ := hstops.split
  obtain ⟨added, hentries, hadded⟩ := hran.exists_added
  have habove : ∀ e ∈ added, s.highest < e.version ∧ ∃ m ∈ migrations, e = m.entry fill ∧
      ∃ pre post, ran = pre ++ m.script fill ++ post := by
    intro e he
    obtain ⟨m, hpending, rfl, hparts⟩ := exists_script hscript (hadded e he)
    obtain ⟨hmem, hlt⟩ := mem_pending.mp hpending
    exact ⟨hlt, m, hmem, rfl, hparts⟩
  have hpending : t.pending ⊆ s.pending := fun m hm => by
    obtain ⟨hmem, hlt⟩ := mem_pending.mp hm
    have hle := highest_le_of_added hentries fun e he => (habove e he).1
    exact mem_pending.mpr ⟨hmem, Int.lt_of_le_of_lt hle hlt⟩
  have hnone (hok : answer = .ok ()) : fault = none := by
    cases fault with
    | none => rfl
    | some f => exact absurd (hok.symm.trans htells.choose_spec) nofun
  refine ⟨ran, rest, added, hscript, hran, hentries, habove, fun hok => ?_, fun err herr => ?_,
    fun horderly hok => ?_, fun hkey m => not_keepsOut_of_key hkey⟩
  · obtain rfl := hnone hok
    refine ⟨hall rfl, fun m hm => ?_, fun fill' => ?_⟩
    · refine (mem_or_keepsOut hstops (hpending hm)).resolve_left fun hmem => ?_
      exact absurd (le_highest hmem) (Int.not_le.mpr (mem_pending.mp hm).2)
    · rw [migrate_again_iff hstops.all_done hpending, hstops.grows.constraints]
  · cases fault with
    | none => cases htells.symm.trans herr
    | some f =>
        obtain ⟨during, htold⟩ := htells
        obtain ⟨x, rest', hrest, hfails⟩ := hfirst f rfl
        exact ⟨x, rest', f, during, hrest, hfails, Except.error.inj (herr.symm.trans htold)⟩
  · obtain rfl := hnone hok
    exact horderly.complete hstops

/-- What a run leaves that was cut off after the table of jobs. -/
def interrupted : Schema where
  objects := [⟨ledgerName, .table ledgerLayout⟩, ⟨"jobs", .table jobColumns⟩]
  unmade _ := rfl

/-- The database fills in a time. -/
def noon : Int → String := fun _ => "2026-01-01 12:00:00"

/-- For instance from what an interrupted run has left. -/
theorem migrations_settle_interrupted :
    interrupted.IsOrderly ∧ (interrupted.migrate noon).1 = .ok () ∧
      (interrupted.migrate noon).2.HasObjects ∧
      (∀ v ∈ [1, 2], v ∈ (interrupted.migrate noon).2.entries.map LedgerEntry.version) ∧
      ∀ fill, (interrupted.migrate noon).2.migrate fill =
        (.ok (), (interrupted.migrate noon).2) := by
  have horderly : interrupted.IsOrderly := .inl nofun
  have hok : (interrupted.migrate noon).1 = .ok () := by rfl
  obtain ⟨_, _, _, -, -, -, -, hagain, -, hcomplete, hkey⟩ := migrations_settle interrupted noon
  have hnone : ∀ m, ¬ interrupted.KeepsOut noon m := hkey rfl
  obtain ⟨-, hleft, hidle⟩ := hagain hok
  obtain ⟨hobjects, hversions⟩ := hcomplete horderly hok
  refine ⟨horderly, hok, hobjects, fun v hv => ?_, fun fill => (hidle fill).mpr fun m hm => ?_⟩
  · exact (hversions v hv).resolve_right fun ⟨m, _, _, hout⟩ => hnone m hout
  · exact (hnone m (hleft m hm)).elim

/-- A ledger as a run makes it, with an index by which no two rows may be alike. -/
def indexed (alike : LedgerEntry → LedgerEntry → Bool) (entries : List LedgerEntry) : Schema where
  objects := [⟨ledgerName, .table ledgerLayout⟩, ⟨"ledger_rows", .index ledgerName⟩]
  entries
  constraints := .unique fun e e' => e.version == e'.version || alike e e'
  unmade h := absurd (h _ List.mem_cons_self rfl) nofun

/-- Each name may stand once in the ledger. -/
def namedOnce : Schema := indexed (fun e e' => e.name == e'.name) [⟨0, "jobs", ""⟩]

/-- Each time may stand once in the ledger. -/
def timedOnce : Schema := indexed (fun e e' => e.filled == e'.filled) []

/-- A second later. -/
def afterNoon : Int → String := fun _ => "2026-01-01 12:00:01"

/-- An index on the ledger may keep a version out for good, or until a later run: both runs go
well, and the second enters what the first did not. -/
theorem index_keeps_out :
    (∀ e ∈ namedOnce.entries, e.version ≤ 0) ∧ (namedOnce.migrate noon).1 = .ok () ∧
      1 ∉ (namedOnce.migrate noon).2.entries.map LedgerEntry.version ∧
    (timedOnce.migrate noon).1 = .ok () ∧
      ((timedOnce.migrate noon).2.migrate afterNoon).1 = .ok () ∧
      ((timedOnce.migrate noon).2.migrate afterNoon).2.entries ≠
        (timedOnce.migrate noon).2.entries := by
  refine ⟨by decide, by rfl, by decide +kernel, by rfl, by rfl, by decide +kernel⟩

end Schema

end JobQueue
