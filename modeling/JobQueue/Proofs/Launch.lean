import JobQueue.Program
import JobQueue.Proofs.Registration
import JobQueue.Proofs.Settings

/-!
# JobQueue.Proofs.Launch

How the program comes up.

- Settings that are taken up leave time between sweeps and between cleanups
  (`isZero_of_fromLookup`). So the cleanup task is usable (`Cleanup.usable_task`), and a pool with
  this task only starts (`Pool.start_single`).
- What ends a program by itself is its last line (`getLast?_shown`), which tells a configuration
  error from a database error.
- So a configuration error ends the program exactly if its settings are not taken up (`launch`).
-/

namespace JobQueue

/-! ## Settings -/

namespace Config

theorem isZero_of_interval {lookup : String → Option String} {key : String}
    {unit : UInt64 → Duration} {default d : Duration} (hdefault : default.isZero = false)
    (h : interval lookup key unit default = .ok d) : d.isZero = false := by
  obtain ⟨n, -, h⟩ := bind_eq_ok h
  cases n with
  | none => rwa [← Except.ok.inj h]
  | some n =>
      obtain ⟨hnot, hd⟩ := ite_error_eq_ok_iff.mp h
      rwa [← Except.ok.inj hd, ← Bool.not_eq_true]

/-- There is time between two sweeps and between two cleanups. -/
theorem isZero_of_fromLookup {lookup : String → Option String} {c : Config}
    (h : fromLookup lookup = .ok c) :
    c.reaperInterval.isZero = false ∧ c.cleanupInterval.isZero = false := by
  obtain ⟨reaper, hreaper, h⟩ := bind_eq_ok h
  obtain ⟨grace, -, h⟩ := bind_eq_ok h
  obtain ⟨retention, -, h⟩ := bind_eq_ok h
  obtain ⟨cleanup, hcleanup, h⟩ := bind_eq_ok h
  cases h
  exact ⟨isZero_of_interval rfl hreaper, isZero_of_interval rfl hcleanup⟩

end Config

/-- The cleanup task is usable if there is time between two cleanups. -/
theorem Cleanup.usable_task {every : Duration} (h : every.isZero = false) (retention : Duration) :
    (Cleanup.task every retention).Usable :=
  { Task.usable_new (rfl : taskName.isEmpty = false) .unit .u64 (handler retention) with
    workers := Nat.one_ne_zero
    maxAttempts := Nat.one_ne_zero
    lifetime := h
    periodic := fun _ hp => Option.some.inj hp ▸ ⟨h, rfl⟩ }

/-! ## Pools -/

namespace Pool

theorem add_new {t : Task} (h : t.validate = .ok ()) (c : Config) :
    (new c).add t = .ok ⟨c, [t]⟩ := by
  rw [add, h]
  rfl

/-- A pool of one task waits at its end as long as this task may take. -/
theorem start_single {c : Config} (h : c.reaperInterval.isZero = false) (t : Task) :
    start ⟨c, [t]⟩ =
      .ok ⟨[t], c.reaperInterval, t.workers + 1, c.shutdownGrace.getD t.lifetime⟩ := by
  rw [start, List.isEmpty_cons, if_neg Bool.false_ne_true, h, if_neg Bool.false_ne_true,
    longestLifetime, List.foldl_cons, longer_zero]
  rfl

end Pool

/-! ## Lines -/

namespace Text

/-- A text has no line end. -/
def OneLine (s : String) : Prop := '\n' ∉ s.toList

instance (s : String) : Decidable (OneLine s) := inferInstanceAs (Decidable ('\n' ∉ s.toList))

theorem OneLine.append {s t : String} (hs : OneLine s) (ht : OneLine t) : OneLine (s ++ t) := by
  rw [OneLine, String.toList_append, List.mem_append]
  exact not_or.mpr ⟨hs, ht⟩

theorem OneLine.framed {s before behind : String} (h : OneLine s) (hbefore : OneLine before)
    (hbehind : OneLine behind) : OneLine (before ++ s ++ behind) :=
  (hbefore.append h).append hbehind

theorem newline_notMem_hexadecimal (n : Nat) : '\n' ∉ hexadecimal n := by
  induction n using Nat.strongRecOn with
  | ind n ih =>
      rw [hexadecimal, Nat.toDigits_eq_if (by decide)]
      split
      · exact fun h => Nat.digitChar_ne '\n' rfl (List.mem_singleton.mp h).symm
      · next hle =>
          intro h
          rcases List.mem_append.mp h with h | h
          · exact ih (n / 16) (by omega) h
          · exact Nat.digitChar_ne '\n' rfl (List.mem_singleton.mp h).symm

theorem newline_notMem_escape (c : Char) : '\n' ∉ escape c := by
  unfold escape
  split
  case h_7 hnewline _ _ =>
      split
      · exact fun h => hnewline (List.mem_singleton.mp h).symm
      · simp [newline_notMem_hexadecimal]
  all_goals decide

/-- Line ends are escaped in quotes. -/
theorem oneLine_quoted (s : String) : OneLine (quoted s) := by
  simp [OneLine, quoted, newline_notMem_escape]

theorem pieces_of_notMem {mark : Char} {cs : List Char} (h : mark ∉ cs) :
    pieces mark cs = [cs] := by
  induction cs with
  | nil => rfl
  | cons c cs ih =>
      obtain ⟨hc, hcs⟩ := List.ne_and_not_mem_of_not_mem_cons h
      rw [pieces, if_neg hc.symm, ih hcs]

theorem OneLine.lines_bracketed {before s : String} (hbefore : OneLine before) (hs : OneLine s) :
    lines (before ++ s ++ ")") = [before ++ s ++ ")"] := by
  have hline : OneLine (before ++ s ++ ")") := hs.framed hbefore (by decide)
  have hreturn : (before ++ s ++ ")").toList.getLast? ≠ some '\r' := by
    rw [String.toList_append, List.getLast?_append_of_ne_nil _ (by decide)]
    decide
  rw [lines, pieces_of_notMem hline, List.map_singleton, withoutReturn, if_neg hreturn,
    String.ofList_toList]

end Text

open Text

theorem ConfigError.oneLine_inspect (e : ConfigError) : OneLine e.inspect := by
  cases e with
  | duplicateTask name => exact (oneLine_quoted name).framed (by decide) (by decide)
  | emptyTaskName => decide
  | invalidValue key message =>
      exact (oneLine_quoted message).framed ((oneLine_quoted key).framed (by decide) (by decide))
        (by decide)
  | invalidBlueprint name reason =>
      exact (oneLine_quoted reason).framed ((oneLine_quoted name).framed (by decide) (by decide))
        (by decide)
  | noTasks => decide

theorem DatabaseError.oneLine_inspect (d : DatabaseError) : OneLine d.inspect := by
  cases d <;> exact (oneLine_quoted _).framed (by decide) (by decide)

namespace Program

/-! ## Failures -/

theorem line_config (e : ConfigError) :
    (Failure.config e).line = "Error: Config(" ++ e.inspect ++ ")" := rfl

theorem line_database (d : DatabaseError) :
    (Failure.database d).line = "Error: Database(" ++ d.inspect ++ ")" := rfl

/-- What ends a program by itself is told in one line. -/
theorem lines_line (f : Failure) : lines f.line = [f.line] := by
  cases f with
  | config e => exact OneLine.lines_bracketed (by decide) e.oneLine_inspect
  | database d => exact OneLine.lines_bracketed (by decide) d.oneLine_inspect

/-- What ends a program by itself is its last line. -/
theorem getLast?_shown (texts : List String) (f : Failure) :
    (shown (texts ++ [f.line])).getLast? = some f.line := by
  rw [shown, List.flatMap_append, List.flatMap_singleton, lines_line, List.getLast?_concat]

/-- A configuration error does not read like a database error. -/
theorem line_config_ne (e : ConfigError) (d : DatabaseError) :
    (Failure.config e).line ≠ (Failure.database d).line := by
  intro h
  have hchar := congrArg (fun s => s.toList[7]?) h
  simp [line_config, line_database] at hchar

/-- A configuration error ended the program. -/
def Misconfigured (r : Report) : Prop := ∃ texts e, r = fail texts (.config e)

theorem not_misconfigured_database (texts : List String) (d : DatabaseError) :
    ¬ Misconfigured (fail texts (.database d)) := by
  rintro ⟨texts', e, h⟩
  have hlast := congrArg (fun r => r.lines.getLast?) h
  dsimp only [fail] at hlast
  rw [getLast?_shown, getLast?_shown] at hlast
  exact line_config_ne e d (Option.some.inj hlast).symm

/-! ## Runs -/

/-- What the pool of the program starts as. -/
def plan (c : Config) : PoolPlan :=
  ⟨[Cleanup.task c.cleanupInterval c.retention], c.reaperInterval, 2,
    c.shutdownGrace.getD c.cleanupInterval⟩

section

variable {lookup : String → Option String} {c : Config} (h : Config.fromLookup lookup = .ok c)
include h

theorem usable_cleanup : (Cleanup.task c.cleanupInterval c.retention).Usable :=
  Cleanup.usable_task (Config.isZero_of_fromLookup h).2 c.retention

/-- The pool of settings that were taken up starts. -/
theorem pool_eq : pool c = .ok (plan c) := by
  rw [pool, Pool.add_new (Task.validate_eq_ok_iff.mpr (usable_cleanup h)), ok_bind,
    Pool.start_single (Config.isZero_of_fromLookup h).1]
  rfl

/-- With settings that were taken up, only the database can end the program. -/
theorem run_eq (t : File.Tree) (held : File.Place → Store) (fill : Int → String)
    (supply : Supply) (holds : Store → Bool) (millis : Nat) :
    run lookup t held fill supply holds millis =
      match openStore t c.databasePath held fill with
      | .error d => fail (banner c) (.database d)
      | .ok (medium, store) =>
          ⟨0, true, shown (banner c),
            some (medium, ran (plan c) medium store supply holds millis)⟩ := by
  -- the run looks at the pool only where the database is open
  cases hopen : openStore t c.databasePath held fill with
  | error d =>
      rw [run, h]
      dsimp only
      rw [hopen]
  | ok opened =>
      rw [run, h]
      dsimp only
      rw [hopen, pool_eq h]

end

/-- With settings that are taken up, the cleanup task is usable, a new pool accepts it and starts
as these settings say, with a loop for it and the reaper, and the program runs once its database
is open. So a configuration error ends the program exactly if its settings are not taken up. -/
theorem launch (lookup : String → Option String) :
    (∀ c, Config.fromLookup lookup = .ok c →
      (Cleanup.task c.cleanupInterval c.retention).validate = .ok () ∧
      ∃ p plan, (Pool.new c).add (Cleanup.task c.cleanupInterval c.retention) = .ok p ∧
        p.start = .ok plan ∧
        Pool.Serves plan c [Cleanup.task c.cleanupInterval c.retention] ∧ plan.loops = 2 ∧
        plan.grace = c.shutdownGrace.getD c.cleanupInterval ∧
        ∀ t held fill medium store, openStore t c.databasePath held fill = .ok (medium, store) →
          ∀ supply holds millis, run lookup t held fill supply holds millis =
            ⟨0, true, shown (banner c),
              some (medium, ran plan medium store supply holds millis)⟩) ∧
    ∀ t held fill supply holds millis, Misconfigured (run lookup t held fill supply holds millis) ↔
      ∃ e, Config.fromLookup lookup = .error e := by
  constructor
  · intro c hc
    have hvalid := Task.validate_eq_ok_iff.mpr (usable_cleanup hc)
    have hstart : Pool.start ⟨c, [Cleanup.task c.cleanupInterval c.retention]⟩ = .ok (plan c) :=
      Pool.start_single (Config.isZero_of_fromLookup hc).1 _
    refine ⟨hvalid, _, plan c, Pool.add_new hvalid c, hstart, Pool.serves_of_start hstart, rfl, rfl,
      ?_⟩
    intro t held fill medium store hopen supply holds millis
    rw [run_eq hc, hopen]
  · intro t held fill supply holds millis
    cases hread : Config.fromLookup lookup with
    | error e =>
        refine iff_of_true ⟨[], e, ?_⟩ ⟨e, rfl⟩
        rw [run, hread]
    | ok c =>
        refine iff_of_false ?_ nofun
        rw [run_eq hread]
        split
        · exact not_misconfigured_database _ _
        · rintro ⟨texts, e, h⟩
          cases congrArg Report.code h

/-- Settings of a program that keeps its table in memory and waits for no handler. -/
def hasty (key : String) : Option String :=
  if key = Config.pathKey then some ":memory:"
  else if key = Config.graceKey then some "0"
  else none

/-- The same without time between sweeps. -/
def restless (key : String) : Option String :=
  if key = Config.reaperKey then some "0" else hasty key

/-- For instance a grace of nothing is taken as it is. -/
theorem launch_hasty :
    (∃ c, Config.fromLookup hasty = .ok c ∧
      ∃ p plan, (Pool.new c).add (Cleanup.task c.cleanupInterval c.retention) = .ok p ∧
        p.start = .ok plan ∧ Pool.Serves plan c [Cleanup.task c.cleanupInterval c.retention] ∧
        plan.loops = 2 ∧ plan.grace = .ofMillis 0 ∧
        run hasty {} (fun _ => .empty) (fun _ => "") (.still .earliest) (fun _ => true) 0 =
          ⟨0, true, shown (banner c), some (.memory,
            ran plan .memory .empty (.still .earliest) (fun _ => true) 0)⟩) ∧
    Misconfigured
      (run restless {} (fun _ => .empty) (fun _ => "") (.still .earliest) (fun _ => true) 0) := by
  have hread : Config.fromLookup hasty =
      .ok { databasePath := ":memory:", shutdownGrace := some (.ofMillis 0) } := by decide +kernel
  have hrefused : Config.fromLookup restless =
      .error (.invalidValue Config.reaperKey "must be greater than zero") := by decide +kernel
  obtain ⟨-, p, plan, hadd, hstart, hserves, hloops, hgrace, hrun⟩ := (launch hasty).1 _ hread
  exact ⟨⟨_, hread, p, plan, hadd, hstart, hserves, hloops, hgrace,
    hrun _ _ _ _ _ (if_pos rfl) _ _ _⟩, ((launch restless).2 _ _ _ _ _ _).mpr ⟨_, hrefused⟩⟩

end Program

end JobQueue
