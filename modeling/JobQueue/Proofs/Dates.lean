import JobQueue.Time.Calendar

/-!
# JobQueue.Proofs.Dates

Days and dates are in correspondence.

- A year has as many days as its months together (`yearStart_succ`), so a day lies
  within the months of its year, at the place to which the walk leads (`walk_spec`).
- The date of a day is one of the calendar (`isValid_ofDay`), and its day is that day
  (`toDay_ofDay`).
- Dates are in the order of their days (`ofDay_lt`).
-/

namespace JobQueue.Calendar

/-! ## Months -/

/-- The days of some months. -/
def total (lengths : List Nat) : Nat := lengths.foldl (· + ·) 0

theorem foldl_add_eq (lengths : List Nat) (n : Nat) :
    lengths.foldl (· + ·) n = n + total lengths := by
  induction lengths generalizing n with
  | nil => rfl
  | cons m lengths ih =>
      rw [total, List.foldl_cons, List.foldl_cons, ih, ih (0 + m)]
      omega

@[simp] theorem total_nil : total [] = 0 := rfl

@[simp] theorem total_cons (n : Nat) (lengths : List Nat) :
    total (n :: lengths) = n + total lengths := by
  rw [total, List.foldl_cons, foldl_add_eq, Nat.zero_add]

/-- The walk ends in the month that holds the offset: the months before it and the days
before its day are the offset. -/
theorem walk_spec (lengths : List Nat) (first offset : Nat) (h : offset < total lengths) :
    ∃ i d, walk lengths first offset = (first + i, d + 1) ∧ i < lengths.length ∧
      d < (lengths[i]?).getD 0 ∧ total (lengths.take i) + d = offset := by
  induction lengths generalizing first offset with
  | nil => exact absurd h (Nat.not_lt_zero _)
  | cons n lengths ih =>
      rw [total_cons] at h
      by_cases hn : offset < n
      · exact ⟨0, offset, by simp [walk, hn], by simp, by simpa using hn, by simp⟩
      · obtain ⟨i, d, hwalk, hi, hd, hsum⟩ := ih (first + 1) (offset - n) (by omega)
        refine ⟨i + 1, d, ?_, by simpa using hi, by simpa using hd, ?_⟩
        · rw [walk, if_neg hn, hwalk, Nat.add_assoc, Nat.add_comm 1 i]
        · rw [List.take_succ_cons, total_cons]
          omega

/-! ## Years -/

theorem total_monthLengths (leap : Bool) :
    total (monthLengths leap) = if leap then 366 else 365 := by
  cases leap <;> rfl

/-- A year has as many days as its months together. -/
theorem yearStart_succ (y : Int) :
    yearStart (y + 1) = yearStart y + total (monthLengths (isLeap y)) := by
  rw [total_monthLengths]
  unfold yearStart
  by_cases h₄ : y % 4 = 0
  · by_cases h₁₀₀ : y % 100 = 0
    · by_cases h₄₀₀ : y % 400 = 0
      · have hleap : isLeap y = true := by simp [isLeap, h₄, h₄₀₀]
        rw [hleap, if_pos rfl]
        omega
      · have hleap : isLeap y = false := by simp [isLeap, h₁₀₀, h₄₀₀]
        rw [hleap, if_neg (by decide)]
        omega
    · have hleap : isLeap y = true := by simp [isLeap, h₄, h₁₀₀]
      rw [hleap, if_pos rfl]
      omega
  · have hleap : isLeap y = false := by simp [isLeap, h₄]
    rw [hleap, if_neg (by decide)]
    omega

/-- Years begin one after the other. -/
theorem yearStart_mono {y y' : Int} (h : y ≤ y') : yearStart y ≤ yearStart y' := by
  by_cases heq : y = y'
  · exact Int.le_of_eq (congrArg yearStart heq)
  · unfold yearStart
    omega

/-- A day lies within the months of its year. -/
theorem offset_lt_total (n : Int) :
    (n - yearStart (yearOf n)).toNat < total (monthLengths (isLeap (yearOf n))) := by
  obtain ⟨hlo, hhi⟩ := yearOf_bounds n
  rw [yearStart_succ] at hhi
  omega

/-! ## Dates -/

/-- The parts of the date of a day. -/
theorem ofDay_spec (n : Int) :
    ∃ i d, Date.ofDay n = ⟨yearOf n, i + 1, d + 1⟩ ∧ i < 12 ∧
      d < ((monthLengths (isLeap (yearOf n)))[i]?).getD 0 ∧
      yearStart (yearOf n) + (total ((monthLengths (isLeap (yearOf n))).take i) + d : Nat) = n := by
  obtain ⟨i, d, hwalk, hi, hd, hsum⟩ :=
    walk_spec (monthLengths (isLeap (yearOf n))) 1 _ (offset_lt_total n)
  refine ⟨i, d, ?_, ?_, hd, ?_⟩
  · rw [Date.ofDay, hwalk, Nat.add_comm 1 i]
  · cases isLeap (yearOf n) <;> exact hi
  · obtain ⟨hlo, -⟩ := yearOf_bounds n
    rw [hsum]
    omega

/-- The date of a day is one of the calendar. -/
theorem isValid_ofDay (n : Int) : (Date.ofDay n).isValid = true := by
  obtain ⟨i, d, heq, hi, hd, -⟩ := ofDay_spec n
  rw [heq]
  simp [Date.isValid, monthLength]
  omega

/-- The day of the date of a day is that day. -/
theorem toDay_ofDay (n : Int) : (Date.ofDay n).toDay = n := by
  obtain ⟨i, d, heq, -, -, hday⟩ := ofDay_spec n
  rw [heq]
  simpa [Date.toDay, daysBefore, total] using hday

/-- Months and days are written with two digits. -/
theorem ofDay_bounds (n : Int) :
    1 ≤ (Date.ofDay n).month ∧ (Date.ofDay n).month ≤ 12 ∧ 1 ≤ (Date.ofDay n).day ∧
      (Date.ofDay n).day ≤ 31 := by
  obtain ⟨i, d, heq, hi, hd, -⟩ := ofDay_spec n
  have hlen : ∀ leap, ∀ k < 12, ((monthLengths leap)[k]?).getD 0 ≤ 31 := by decide
  have hle := hlen (isLeap (yearOf n)) i hi
  rw [heq]
  dsimp only
  omega

/-! ## Order -/

/-- A month begins after the end of each month before it. -/
theorem total_take_lt {lengths : List Nat} {i j d : Nat} (hij : i < j)
    (hd : d < (lengths[i]?).getD 0) : total (lengths.take i) + d < total (lengths.take j) := by
  induction lengths generalizing i j with
  | nil => exact absurd hd (Nat.not_lt_zero _)
  | cons n lengths ih =>
      obtain ⟨j, rfl⟩ : ∃ k, j = k + 1 := ⟨j - 1, by omega⟩
      rw [List.take_succ_cons, total_cons]
      cases i with
      | zero =>
          have hn : d < n := hd
          rw [List.take_zero, total_nil]
          omega
      | succ i =>
          have hlt := ih (Nat.lt_of_succ_lt_succ hij) hd
          rw [List.take_succ_cons, total_cons]
          omega

/-- The year of a later day is no earlier. -/
theorem yearOf_mono {m n : Int} (h : m ≤ n) : yearOf m ≤ yearOf n := by
  obtain ⟨hlo, -⟩ := yearOf_bounds m
  obtain ⟨-, hhi⟩ := yearOf_bounds n
  refine Int.not_lt.mp fun hlt => ?_
  have hle : yearStart (yearOf n + 1) ≤ yearStart (yearOf m) := yearStart_mono (by omega)
  omega

/-- A year is reached exactly with its first day. -/
theorem le_yearOf_iff {y n : Int} : y ≤ yearOf n ↔ yearStart y ≤ n := by
  obtain ⟨hlo, hhi⟩ := yearOf_bounds n
  constructor
  · intro h
    have hle : yearStart y ≤ yearStart (yearOf n) := yearStart_mono h
    omega
  · intro h
    refine Int.not_lt.mp fun hlt => ?_
    have hle : yearStart (yearOf n + 1) ≤ yearStart y := yearStart_mono (by omega)
    omega

/-- Dates are in the order of their days: by the year, the month and the day. -/
theorem ofDay_lt {m n : Int} (h : m < n) :
    (Date.ofDay m).year < (Date.ofDay n).year ∨ (Date.ofDay m).year = (Date.ofDay n).year ∧
      ((Date.ofDay m).month < (Date.ofDay n).month ∨
        (Date.ofDay m).month = (Date.ofDay n).month ∧ (Date.ofDay m).day < (Date.ofDay n).day) := by
  obtain ⟨i, d, hm, -, hd, hmday⟩ := ofDay_spec m
  obtain ⟨j, e, hn, -, he, hnday⟩ := ofDay_spec n
  have hyear : yearOf m ≤ yearOf n := yearOf_mono (Int.le_of_lt h)
  rw [hm, hn]
  dsimp only
  rcases Int.lt_or_eq_of_le hyear with hlt | heq
  · exact .inl hlt
  · rw [heq] at hmday hd
    refine .inr ⟨heq, ?_⟩
    rcases Nat.lt_trichotomy i j with hij | rfl | hij
    · exact .inl (by omega)
    · exact .inr ⟨rfl, by omega⟩
    · have hlt := total_take_lt hij he
      omega

end JobQueue.Calendar
