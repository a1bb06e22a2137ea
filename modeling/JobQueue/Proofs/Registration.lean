import JobQueue.Pool.Timeline
import JobQueue.Proofs.Validity
import Mathlib.Algebra.Ring.Nat

/-!
# JobQueue.Proofs.Registration

Tasks that are added to a pool before it starts.

- A task is accepted if it is usable and its name is new. Else the pool stays as it is
  (`add_cases`).
- The tasks of a pool are those that were accepted (`perm_addEach`), in the order of their names
  (`inOrder_addEach`). An addition that was refused might as well not have been made
  (`addEach_without`).
- So what a pool starts as follows from the tasks that it accepted, in whatever order they came
  (`registration`).
-/

namespace JobQueue

namespace Pool

/-! ## Places -/

/-- Tasks in the order of their names, which are all different. -/
def InOrder (ts : List Task) : Prop := ts.Pairwise fun t u => t.name < u.name

theorem perm_place (t : Task) (ts : List Task) : (place t ts).Perm (t :: ts) := by
  induction ts with
  | nil => exact .refl _
  | cons u ts ih =>
      rw [place]
      split
      · exact .refl _
      · exact (ih.cons u).trans (.swap t u ts)

theorem inOrder_place {t : Task} {ts : List Task} (h : InOrder ts)
    (hnew : ∀ u ∈ ts, u.name ≠ t.name) : InOrder (place t ts) := by
  induction ts with
  | nil => exact List.pairwise_singleton _ _
  | cons u ts ih =>
      obtain ⟨hu, hts⟩ := List.pairwise_cons.mp h
      rw [place]
      split
      · next hlt =>
          refine List.pairwise_cons.mpr ⟨fun v hv => ?_, h⟩
          rcases List.mem_cons.mp hv with rfl | hv
          · exact hlt
          · exact String.lt_trans hlt (hu v hv)
      · next hnot =>
          obtain ⟨hne, hnew⟩ := List.forall_mem_cons.mp hnew
          have hlt : u.name < t.name := String.not_le.mp fun hle =>
            hne (String.le_antisymm (String.not_lt.mp hnot) hle)
          refine List.pairwise_cons.mpr ⟨fun v hv => ?_, ih hts hnew⟩
          rcases List.mem_cons.mp ((perm_place t ts).mem_iff.mp hv) with rfl | hv
          · exact hlt
          · exact hu v hv

/-- An order of names is the only one of its tasks. -/
theorem InOrder.eq_of_perm {ts us : List Task} (hts : InOrder ts) (hus : InOrder us)
    (h : ts.Perm us) : ts = us :=
  h.eq_of_pairwise (fun _ _ _ _ hlt hgt => absurd hgt (String.lt_asymm hlt)) hts hus

/-! ## Additions -/

/-- An addition is refused and leaves no trace, or the task is placed among the others. -/
theorem add_cases (p : Pool) (t : Task) :
    (∃ e, p.add t = .error e ∧ (t.validate = .error e ∨
      t.validate = .ok () ∧ e = .duplicateTask t.name ∧ ∃ u ∈ p.tasks, u.name = t.name)) ∨
    (t.validate = .ok () ∧ (∀ u ∈ p.tasks, u.name ≠ t.name) ∧
      p.add t = .ok { p with tasks := place t p.tasks }) := by
  rw [add]
  cases hvalid : t.validate with
  | error e => exact .inl ⟨e, rfl, .inl rfl⟩
  | ok u =>
      rw [ok_bind]
      by_cases htaken : p.tasks.any fun u => u.name == t.name
      · obtain ⟨u, hu, hname⟩ := List.any_eq_true.mp htaken
        rw [if_pos htaken]
        exact .inl ⟨_, rfl, .inr ⟨rfl, rfl, u, hu, eq_of_beq hname⟩⟩
      · rw [if_neg htaken]
        refine .inr ⟨rfl, fun u hu hname => htaken ?_, rfl⟩
        exact List.any_eq_true.mpr ⟨u, hu, beq_iff_eq.mpr hname⟩

theorem addEach_cons_of_ok {p q : Pool} {t : Task} (h : p.add t = .ok q) (ts : List Task) :
    p.addEach (t :: ts) = (.ok () :: (q.addEach ts).1, (q.addEach ts).2) := by
  rw [addEach, h]

theorem addEach_cons_of_error {p : Pool} {t : Task} {e : ConfigError} (h : p.add t = .error e)
    (ts : List Task) : p.addEach (t :: ts) = (.error e :: (p.addEach ts).1, (p.addEach ts).2) := by
  rw [addEach, h]

theorem addEach_append (p : Pool) (ts us : List Task) :
    p.addEach (ts ++ us) = ((p.addEach ts).1 ++ ((p.addEach ts).2.addEach us).1,
      ((p.addEach ts).2.addEach us).2) := by
  induction ts generalizing p with
  | nil => rfl
  | cons t ts ih =>
      rw [List.cons_append]
      cases h : p.add t with
      | error e => simp only [addEach_cons_of_error h, ih, List.cons_append]
      | ok q => simp only [addEach_cons_of_ok h, ih, List.cons_append]

theorem length_addEach (p : Pool) (ts : List Task) : (p.addEach ts).1.length = ts.length := by
  induction ts generalizing p with
  | nil => rfl
  | cons t ts ih =>
      cases h : p.add t with
      | error e => rw [addEach_cons_of_error h, List.length_cons, ih, List.length_cons]
      | ok q => rw [addEach_cons_of_ok h, List.length_cons, ih, List.length_cons]

/-- An addition that is refused changes neither the pool nor any other answer. -/
theorem addEach_without {p : Pool} {pre : List Task} {t : Task} {e : ConfigError}
    (h : (p.addEach pre).2.add t = .error e) (post : List Task) :
    (p.addEach (pre ++ t :: post)).1.eraseIdx pre.length = (p.addEach (pre ++ post)).1 ∧
      (p.addEach (pre ++ t :: post)).2 = (p.addEach (pre ++ post)).2 := by
  rw [addEach_append, addEach_append, addEach_cons_of_error h]
  refine ⟨?_, rfl⟩
  rw [← length_addEach p pre, List.eraseIdx_append_of_length_le (Nat.le_refl _), Nat.sub_self,
    List.eraseIdx_cons_zero]

/-! ## Accepted tasks -/

/-- The tasks whose additions were answered without an error. -/
def kept (ts : List Task) (answers : List (Except ConfigError Unit)) : List Task :=
  ((ts.zip answers).filter fun x => x.2.isOk).map Prod.fst

/-- The tasks of a pool are those that it had and those that it accepted. -/
theorem perm_addEach (p : Pool) (ts : List Task) :
    (p.addEach ts).2.tasks.Perm (p.tasks ++ kept ts (p.addEach ts).1) := by
  induction ts generalizing p with
  | nil => rw [addEach, kept, List.zip_nil_left, List.filter_nil, List.map_nil, List.append_nil]
  | cons t ts ih =>
      rcases p.add_cases t with ⟨e, he, -⟩ | ⟨-, -, hok⟩
      · rw [addEach_cons_of_error he]
        exact ih p
      · rw [addEach_cons_of_ok hok]
        exact (ih _).trans (((perm_place t p.tasks).append_right _).trans List.perm_middle.symm)

theorem inOrder_addEach {p : Pool} (h : InOrder p.tasks) (ts : List Task) :
    InOrder (p.addEach ts).2.tasks := by
  induction ts generalizing p with
  | nil => exact h
  | cons t ts ih =>
      rcases p.add_cases t with ⟨e, he, -⟩ | ⟨-, hnew, hok⟩
      · rw [addEach_cons_of_error he]
        exact ih h
      · rw [addEach_cons_of_ok hok]
        exact ih (inOrder_place h hnew)

theorem config_addEach (p : Pool) (ts : List Task) : (p.addEach ts).2.config = p.config := by
  induction ts generalizing p with
  | nil => rfl
  | cons t ts ih =>
      rcases p.add_cases t with ⟨e, he, -⟩ | ⟨-, -, hok⟩
      · rw [addEach_cons_of_error he, ih]
      · rw [addEach_cons_of_ok hok, ih]

/-! ## Totals -/

theorem lanes_eq_sum (ts : List Task) : lanes ts = (ts.map Task.workers).sum := by
  induction ts with
  | nil => rfl
  | cons t ts ih => rw [lanes, ih, List.map_cons, List.sum_cons]

/-- There is a lane for each worker. -/
theorem length_lanesOf (plan : PoolPlan) :
    (Timeline.lanesOf plan).length = (plan.tasks.map Task.workers).sum := by
  rw [Timeline.lanesOf, List.length_flatMap]
  simp only [List.length_replicate]

/-- A length of time is one of several, and none of them is longer. -/
def IsLongest (d : Duration) (ds : List Duration) : Prop := d ∈ ds ∧ ∀ e ∈ ds, e ≤ d

theorem isLongest_cons_longer {d a b : Duration} {ds : List Duration}
    (h : IsLongest d (.longer a b :: ds)) : IsLongest d (a :: b :: ds) := by
  obtain ⟨hmem, hle⟩ := h
  obtain ⟨hlonger, hle⟩ := List.forall_mem_cons.mp hle
  have hb : b ≤ d := Nat.le_trans (Duration.le_longer_right a b) hlonger
  rw [Duration.longer] at hmem hlonger
  split at hmem
  · next hab =>
      exact ⟨List.mem_cons_of_mem _ hmem,
        List.forall_mem_cons.mpr ⟨Nat.le_trans hab hb, List.forall_mem_cons.mpr ⟨hb, hle⟩⟩⟩
  · next hab =>
      rw [if_neg hab] at hlonger
      refine ⟨?_, List.forall_mem_cons.mpr ⟨hlonger, List.forall_mem_cons.mpr ⟨hb, hle⟩⟩⟩
      rcases List.mem_cons.mp hmem with rfl | hmem
      · exact List.mem_cons_self
      · exact List.mem_cons_of_mem _ (List.mem_cons_of_mem _ hmem)

theorem isLongest_foldl (d : Duration) (ts : List Task) :
    IsLongest (ts.foldl (fun d t => .longer d t.lifetime) d) (d :: ts.map Task.lifetime) := by
  induction ts generalizing d with
  | nil => exact ⟨List.mem_singleton_self d, fun e he => List.mem_singleton.mp he ▸ Nat.le_refl _⟩
  | cons t ts ih =>
      rw [List.foldl_cons, List.map_cons]
      exact isLongest_cons_longer (ih _)

theorem longer_zero (d : Duration) : Duration.longer .zero d = d := if_pos (Nat.zero_le d.nanos)

/-- Among tasks there is a longest lifetime. -/
theorem isLongest_longestLifetime {ts : List Task} (hne : ts ≠ []) :
    IsLongest (longestLifetime ts) (ts.map Task.lifetime) := by
  cases ts with
  | nil => exact absurd rfl hne
  | cons t ts =>
      rw [longestLifetime, List.foldl_cons, longer_zero]
      exact isLongest_foldl t.lifetime ts

theorem IsLongest.congr {d : Duration} {ds es : List Duration} (h : IsLongest d ds)
    (hmem : ∀ e, e ∈ es ↔ e ∈ ds) : IsLongest d es :=
  ⟨(hmem d).mpr h.1, fun e he => h.2 e ((hmem e).mp he)⟩

/-! ## Starts -/

/-- The answers to tasks that are added to a new pool, one after another. -/
def answers (c : Config) (ts : List Task) : List (Except ConfigError Unit) :=
  ((new c).addEach ts).1

/-- The pool after them. -/
def filled (c : Config) (ts : List Task) : Pool := ((new c).addEach ts).2

/-- Those of the tasks that it accepted. -/
def accepted (c : Config) (ts : List Task) : List Task := kept ts (answers c ts)

/-- A plan serves tasks with given settings: it has a lane for each of their workers and one loop
more, and its grace is the one that is set, or else the longest of their lifetimes. -/
structure Serves (plan : PoolPlan) (c : Config) (ts : List Task) : Prop where
  tasks : plan.tasks.Perm ts
  interval : plan.interval = c.reaperInterval
  lanes : (Timeline.lanesOf plan).length = (ts.map Task.workers).sum
  loops : plan.loops = 1 + (ts.map Task.workers).sum
  grace : c.shutdownGrace = some plan.grace ∨
    c.shutdownGrace = none ∧ IsLongest plan.grace (ts.map Task.lifetime)

theorem Serves.perm {plan : PoolPlan} {c : Config} {ts us : List Task} (h : Serves plan c ts)
    (hperm : ts.Perm us) : Serves plan c us := by
  have hsum := (hperm.map Task.workers).sum_nat
  refine ⟨h.tasks.trans hperm, h.interval, hsum ▸ h.lanes, hsum ▸ h.loops, ?_⟩
  exact h.grace.imp_right fun ⟨hnone, hlongest⟩ =>
    ⟨hnone, hlongest.congr fun _ => (hperm.map Task.lifetime).mem_iff.symm⟩

/-- What a pool starts as serves its tasks with its settings. -/
theorem serves_of_start {p : Pool} {plan : PoolPlan} (h : p.start = .ok plan) :
    Serves plan p.config p.tasks := by
  rw [start] at h
  split at h
  · cases h
  · next hne =>
      split at h
      · cases h
      · cases h
        refine ⟨.refl _, rfl, length_lanesOf _, ?_, ?_⟩
        · dsimp only
          rw [lanes_eq_sum, Nat.add_comm]
        · dsimp only
          cases p.config.shutdownGrace with
          | none => exact .inr ⟨rfl, isLongest_longestLifetime (mt List.isEmpty_iff.mpr hne)⟩
          | some d => exact .inl rfl

section

variable (c : Config) (ts : List Task)

theorem perm_accepted : (filled c ts).tasks.Perm (accepted c ts) := perm_addEach (new c) ts

theorem inOrder_filled : InOrder (filled c ts).tasks :=
  inOrder_addEach (p := new c) List.Pairwise.nil ts

theorem config_filled : (filled c ts).config = c := config_addEach (new c) ts

/-- The pool is that of the tasks it accepted, in whatever order they came. -/
theorem filled_eq {us : List Task} (h : (accepted c us).Perm (accepted c ts)) :
    filled c us = filled c ts := by
  -- both hold the same tasks in the order of their names, of which there is only one
  have htasks : (filled c us).tasks = (filled c ts).tasks :=
    (inOrder_filled c us).eq_of_perm (inOrder_filled c ts)
      ((perm_accepted c us).trans (h.trans (perm_accepted c ts).symm))
  have hconfig : (filled c us).config = (filled c ts).config :=
    (config_filled c us).trans (config_filled c ts).symm
  cases hus : filled c us
  cases hts : filled c ts
  rw [hus, hts] at htasks hconfig
  exact congr (congrArg Pool.mk hconfig) htasks

/-- The answer to a task comes from the pool of the tasks before it. -/
theorem answer_of_split (pre post : List Task) (t : Task) :
    (answers c (pre ++ t :: post))[pre.length]? =
      some (((filled c pre).add t).map fun _ => ()) := by
  rw [answers, addEach_append, ← length_addEach (new c) pre,
    List.getElem?_append_right (Nat.le_refl _), Nat.sub_self, ← filled]
  cases h : (filled c pre).add t with
  | error e => rw [addEach_cons_of_error h]; rfl
  | ok q => rw [addEach_cons_of_ok h]; rfl

/-- A task is accepted if it is usable and its name is new; else all is as without it. -/
theorem answer_spec (pre post : List Task) (t : Task) :
    ∃ answer, (answers c (pre ++ t :: post))[pre.length]? = some answer ∧
      (answer = .ok () ↔ t.validate = .ok () ∧ ∀ u ∈ accepted c pre, u.name ≠ t.name) ∧
      (answer ≠ .ok () →
        (answers c (pre ++ t :: post)).eraseIdx pre.length = answers c (pre ++ post) ∧
        filled c (pre ++ t :: post) = filled c (pre ++ post)) := by
  refine ⟨_, answer_of_split c pre post t, ?_⟩
  have hmem {u : Task} : u ∈ (filled c pre).tasks ↔ u ∈ accepted c pre :=
    (perm_accepted c pre).mem_iff
  rcases (filled c pre).add_cases t with ⟨e, he, hwhy⟩ | ⟨hvalid, hnew, hok⟩
  · refine ⟨⟨fun h => ?_, ?_⟩, fun _ => addEach_without he post⟩
    · rw [he] at h
      cases h
    · rintro ⟨hvalid, hnew⟩
      rcases hwhy with hinvalid | ⟨-, -, u, hu, hname⟩
      · cases hvalid.symm.trans hinvalid
      · exact absurd hname (hnew u (hmem.mp hu))
  · rw [hok]
    exact ⟨⟨fun _ => ⟨hvalid, fun u hu => hnew u (hmem.mpr hu)⟩, fun _ => rfl⟩,
      fun h => absurd rfl h⟩

theorem start_of_eq_nil (h : accepted c ts = []) : (filled c ts).start = .error .noTasks := by
  have hnil : (filled c ts).tasks = [] := (h ▸ perm_accepted c ts).eq_nil
  rw [start, hnil]
  rfl

theorem tasks_ne_nil (h : accepted c ts ≠ []) : (filled c ts).tasks ≠ [] := fun hnil =>
  h (hnil ▸ perm_accepted c ts).nil_eq.symm

theorem start_of_isZero (h : accepted c ts ≠ []) (hzero : c.reaperInterval.isZero) :
    (filled c ts).start = .error (.zero "reaper_interval") := by
  rw [start, config_filled, if_neg (mt List.isEmpty_iff.mp (tasks_ne_nil c ts h)), if_pos hzero]

theorem exists_start (h : accepted c ts ≠ []) (hzero : c.reaperInterval.isZero = false) :
    ∃ plan, (filled c ts).start = .ok plan ∧ Serves plan c (accepted c ts) := by
  obtain ⟨plan, hstart⟩ : ∃ plan, (filled c ts).start = .ok plan := by
    rw [start, config_filled, if_neg (mt List.isEmpty_iff.mp (tasks_ne_nil c ts h)),
      if_neg (Bool.eq_false_iff.mp hzero)]
    exact ⟨_, rfl⟩
  have hserves := serves_of_start hstart
  rw [config_filled] at hserves
  exact ⟨_, hstart, hserves.perm (perm_accepted c ts)⟩

/-- A task that is added to a new pool after others is accepted exactly if it is usable and none
that was accepted before it has its name. If it is not, then all other answers and the pool are
those without it. The pool does not start without an accepted task, or without time between
sweeps; else it starts as its settings and the accepted tasks say. In which order these were added
makes no difference. -/
theorem registration :
    (∀ pre t post, ts = pre ++ t :: post → ∃ answer, (answers c ts)[pre.length]? = some answer ∧
      (answer = .ok () ↔ t.validate = .ok () ∧ ∀ u ∈ accepted c pre, u.name ≠ t.name) ∧
      (answer ≠ .ok () → (answers c ts).eraseIdx pre.length = answers c (pre ++ post) ∧
        filled c ts = filled c (pre ++ post))) ∧
    (accepted c ts = [] → (filled c ts).start = .error .noTasks) ∧
    (accepted c ts ≠ [] → c.reaperInterval.isZero → (filled c ts).start =
      .error (.invalidValue "reaper_interval" "must be greater than zero")) ∧
    (accepted c ts ≠ [] → c.reaperInterval.isZero = false →
      ∃ plan, (filled c ts).start = .ok plan ∧ Serves plan c (accepted c ts)) ∧
    ∀ us, (accepted c us).Perm (accepted c ts) → (filled c us).start = (filled c ts).start := by
  refine ⟨?_, start_of_eq_nil c ts, start_of_isZero c ts, exists_start c ts,
    fun us hus => by rw [filled_eq c ts hus]⟩
  rintro pre t post rfl
  exact answer_spec c pre post t

end

/-! ## A sample -/

/-- A task of a name, with workers and a lifetime. -/
def plain (name : String) (workers : Nat) (lifetime : Duration) : Task :=
  { Task.new name .unit .unit (.pure fun _ => .returned ()) with workers, lifetime }

/-- A task, one that is not usable, one of the name of the first, and one of the name of the
second. -/
def mixed : List Task :=
  [plain "mail" 3 (.ofSecs 60), plain "tick" 0 (.ofSecs 900), plain "mail" 5 (.ofSecs 3600),
    plain "tick" 2 (.ofSecs 30)]

/-- For instance the second name is still free, and the settings of the first task stay. -/
theorem registration_mixed :
    answers {} mixed = [.ok (), .error (.invalidValue "tick.workers" "must be at least 1"),
        .error (.duplicateTask "mail"), .ok ()] ∧
      accepted {} mixed = [plain "mail" 3 (.ofSecs 60), plain "tick" 2 (.ofSecs 30)] ∧
      filled {} mixed = filled {} [plain "mail" 3 (.ofSecs 60), plain "mail" 5 (.ofSecs 3600),
        plain "tick" 2 (.ofSecs 30)] ∧
      ∃ plan, (filled {} mixed).start = .ok plan ∧ plan.loops = 6 ∧
        plan.grace = .ofSecs 60 := by
  have hanswers : answers {} mixed = [.ok (),
      .error (.invalidValue "tick.workers" "must be at least 1"),
      .error (.duplicateTask "mail"), .ok ()] := by decide +kernel
  have haccepted : accepted {} mixed =
      [plain "mail" 3 (.ofSecs 60), plain "tick" 2 (.ofSecs 30)] := by
    rw [accepted, hanswers]
    rfl
  obtain ⟨hcalls, -, -, hstart, -⟩ := registration {} mixed
  obtain ⟨answer, hanswer, -, hwithout⟩ := hcalls [_] _ _ rfl
  have hrefused : answer ≠ .ok () := by
    rw [hanswers] at hanswer
    rintro rfl
    cases hanswer
  obtain ⟨plan, hplan, hserves⟩ := hstart (by rw [haccepted]; exact List.cons_ne_nil _ _) rfl
  rw [haccepted] at hserves
  refine ⟨hanswers, haccepted, (hwithout hrefused).2, plan, hplan, hserves.loops, ?_⟩
  rcases hserves.grace with hset | ⟨-, hmem, hle⟩
  · cases hset
  · rcases List.mem_cons.mp hmem with h | h
    · exact h
    · have hmail : Duration.ofSecs 60 ≤ plan.grace := hle _ List.mem_cons_self
      rw [List.mem_singleton.mp h] at hmail
      exact absurd hmail (by decide)

end Pool

end JobQueue
