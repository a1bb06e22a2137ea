import JobQueue.Decimal.Nearest
import JobQueue.Decimal.Shortest
import Mathlib.Data.Rat.Cast.Order
import Mathlib.Algebra.Order.Field.Power
import Mathlib.Tactic.FieldSimp
import Mathlib.Tactic.Linarith
import Mathlib.Tactic.NormNum
import Mathlib.Tactic.Ring

/-!
# JobQueue.Proofs.Rounding

The shortest decimal of a finite number is read as a finite number.

- Decimals below `limit`, half a unit beyond the greatest finite number, have a nearest
  number that is finite (`exists_nearest?`).
- The shortest decimal of a number lies in the interval that the number stands for, which
  ends before the limit (`value_shortest_lt`).
-/

namespace JobQueue.Decimal

open Text

/-! ## Fractions -/

/-- A power with an exponent of either sign, as a numerator and a denominator. -/
theorem toNat_div_toNat (a : ℚ) (k : ℤ) :
    a ^ k.toNat / a ^ (-k).toNat = a ^ k := by
  rcases Int.le_total 0 k with h | h
  · rw [show (-k).toNat = 0 by omega, pow_zero, div_one, ← zpow_natCast, Int.toNat_of_nonneg h]
  · rw [show k.toNat = 0 by omega, pow_zero, one_div, ← zpow_natCast,
      Int.toNat_of_nonneg (by omega), zpow_neg, inv_inv]

/-- Fractions are compared crosswise. -/
theorem pow_le_div_iff (num : Nat) {den : Nat} (hden : 0 < den) (k : ℤ) :
    den * 2 ^ k.toNat ≤ num * 2 ^ (-k).toNat ↔ (2 : ℚ) ^ k ≤ num / den := by
  have hd : (0 : ℚ) < den := by exact_mod_cast hden
  have hp : (0 : ℚ) < 2 ^ (-k).toNat := by positivity
  rw [← toNat_div_toNat, div_le_div_iff₀ hp hd, mul_comm _ (den : ℚ)]
  exact_mod_cast Iff.rfl

/-! ## The grid of the numbers -/

/-- A fraction lies between powers of two that its logarithms give. -/
theorem log2_bounds {num den : Nat} (hnum : 0 < num) (hden : 0 < den) :
    (2 : ℚ) ^ ((num.log2 : ℤ) - den.log2 - 1) ≤ num / den ∧
      (num : ℚ) / den < 2 ^ ((num.log2 : ℤ) - den.log2 + 1) := by
  have hd : (0 : ℚ) < den := by exact_mod_cast hden
  have hnlo : (2 : ℚ) ^ num.log2 ≤ num := by exact_mod_cast Nat.log2_self_le hnum.ne'
  have hnhi : (num : ℚ) < 2 ^ (num.log2 + 1) := by exact_mod_cast Nat.lt_log2_self
  have hdlo : (2 : ℚ) ^ den.log2 ≤ den := by exact_mod_cast Nat.log2_self_le hden.ne'
  have hdhi : (den : ℚ) < 2 ^ (den.log2 + 1) := by exact_mod_cast Nat.lt_log2_self
  constructor
  · calc (2 : ℚ) ^ ((num.log2 : ℤ) - den.log2 - 1)
        = 2 ^ num.log2 / 2 ^ (den.log2 + 1) := by
          rw [sub_sub, zpow_sub₀ two_ne_zero, zpow_natCast]
          norm_cast
      _ ≤ num / den := div_le_div₀ (by positivity) hnlo hd hdhi.le
  · calc (num : ℚ) / den < 2 ^ (num.log2 + 1) / 2 ^ den.log2 :=
          div_lt_div₀ hnhi hdlo (by positivity) (by positivity)
      _ = 2 ^ ((num.log2 : ℤ) - den.log2 + 1) := by
          rw [show (num.log2 : ℤ) - den.log2 + 1 = (num.log2 + 1 : Nat) - (den.log2 : Nat) by
            push_cast; ring, zpow_sub₀ two_ne_zero, zpow_natCast, zpow_natCast]

/-- A fraction has at most 53 bits before its power of two, and no fewer unless that is
the least there is. -/
theorem gridExponent_spec {num den : Nat} (hnum : 0 < num) (hden : 0 < den) :
    (num : ℚ) / den < 2 ^ (gridExponent num den + 53) ∧
      -1074 ≤ gridExponent num den ∧
      (gridExponent num den = -1074 ∨ (2 : ℚ) ^ (gridExponent num den + 52) ≤ num / den) := by
  obtain ⟨hlo, hhi⟩ := log2_bounds hnum hden
  have hmono {x y : ℤ} (h : x ≤ y) : (2 : ℚ) ^ x ≤ 2 ^ y := zpow_le_zpow_right₀ one_le_two h
  have hwide := pow_le_div_iff num hden ((num.log2 : ℤ) - den.log2 - 53 + 53)
  rw [gridExponent]
  generalize (num.log2 : ℤ) - den.log2 = k at hlo hhi hwide ⊢
  rw [sub_add_cancel] at hwide
  by_cases h : (2 : ℚ) ^ k ≤ num / den
  · rw [sub_add_cancel, decide_eq_true (hwide.mpr h), if_pos rfl]
    refine ⟨lt_of_lt_of_le hhi (hmono (by omega)), by omega, ?_⟩
    rcases Int.le_total (k - 53 + 1) (-1074) with hk | hk
    · exact .inl (by omega)
    · exact .inr (le_trans (hmono (by omega)) h)
  · rw [sub_add_cancel, decide_eq_false (fun hle => h (hwide.mp hle)), if_neg (by decide)]
    refine ⟨lt_of_lt_of_le (lt_of_not_ge h) (hmono (by omega)), by omega, ?_⟩
    rcases Int.le_total (k - 53) (-1074) with hk | hk
    · exact .inl (by omega)
    · exact .inr (le_trans (hmono (by omega)) hlo)

/-! ## Rounding -/

/-- Half a unit beyond the greatest finite number. -/
def limit : ℚ := (2 ^ 54 - 1) * 2 ^ (970 : ℤ)

theorem limit_eq : limit = (2 ^ 53 - 1 / 2) * 2 ^ (971 : ℤ) := by
  rw [limit, show (971 : ℤ) = 970 + 1 from rfl, zpow_add_one₀ two_ne_zero]
  ring

theorem limit_lt : limit < 2 ^ (1024 : ℤ) :=
  calc limit < 2 ^ 54 * 2 ^ (970 : ℤ) := mul_lt_mul_of_pos_right (by norm_num) (by positivity)
    _ = 2 ^ (1024 : ℤ) := by rw [← zpow_natCast, ← zpow_add₀ two_ne_zero]; rfl

theorem limit_lt_pow_ten : limit < 10 ^ (310 : ℤ) := by
  refine limit_lt.trans_le ?_
  calc (2 : ℚ) ^ (1024 : ℤ) = (2 ^ 93) ^ 11 * 2 := by rw [← pow_mul, ← pow_succ]; rfl
    _ ≤ (10 ^ 28) ^ 11 * 10 ^ 2 := by gcongr <;> norm_num
    _ = 10 ^ (310 : ℤ) := by rw [← pow_mul, ← pow_add]; rfl

/-- What is rounded on a grid is the fraction in units of the grid, up to a half. -/
theorem roundDiv_le (num : Nat) {den : Nat} (hden : 0 < den) (q : ℤ) :
    (Binary.roundDiv (num * 2 ^ (-q).toNat) (den * 2 ^ q.toNat) : ℚ) ≤
      num / den / 2 ^ q + 1 / 2 := by
  have hd : (0 : ℚ) < den := by exact_mod_cast hden
  have hp : (0 : ℚ) < 2 ^ q.toNat := by positivity
  have hpos : 0 < den * 2 ^ q.toNat := Nat.mul_pos hden (Nat.pow_pos (by decide))
  have hbound := (@Binary.roundDiv_bounds (num * 2 ^ (-q).toNat) _ hpos).2
  generalize Binary.roundDiv (num * 2 ^ (-q).toNat) (den * 2 ^ q.toNat) = r at hbound
  have hle : 2 * (r : ℚ) * (den * 2 ^ q.toNat) ≤
      2 * (num * 2 ^ (-q).toNat) + den * 2 ^ q.toNat := by exact_mod_cast hbound
  rw [← toNat_div_toNat 2 q]
  field_simp
  linarith

/-- A fraction below the limit has a nearest number that is finite. -/
theorem nearestBits_lt {num den : Nat} (hnum : 0 < num) (hden : 0 < den)
    (h : (num : ℚ) / den < limit) : nearestBits num den < infiniteBits := by
  obtain ⟨hhi, hleast, hlo⟩ := gridExponent_spec hnum hden
  have hround := roundDiv_le num hden (gridExponent num den)
  rw [nearestBits, infiniteBits]
  generalize gridExponent num den = q at hhi hleast hlo hround ⊢
  generalize Binary.roundDiv (num * 2 ^ (-q).toNat) (den * 2 ^ q.toNat) = r at hround ⊢
  have hq : (0 : ℚ) < 2 ^ q := by positivity
  -- the mantissa of a fraction of the greatest size is kept below the next power of two
  by_cases hsize : q ≤ 970
  · have hr : (r : ℚ) < 2 ^ 53 + 1 := by
      have hdiv : (num : ℚ) / den / 2 ^ q < 2 ^ 53 := by
        rw [div_lt_iff₀ hq]
        calc (num : ℚ) / den < 2 ^ (q + 53) := hhi
          _ = 2 ^ 53 * 2 ^ q := by rw [zpow_add₀ two_ne_zero, mul_comm]; norm_cast
      linarith
    have hr' : r < 2 ^ 53 + 1 := by exact_mod_cast hr
    omega
  · have hgreatest : q ≤ 971 := by
      rcases hlo with hq | hlo
      · omega
      · have hlt : (2 : ℚ) ^ (q + 52) < 2 ^ (1024 : ℤ) := hlo.trans_lt (h.trans limit_lt)
        have := (zpow_lt_zpow_iff_right₀ one_lt_two).mp hlt
        omega
    have hq : q = 971 := by omega
    have hr : (r : ℚ) < 2 ^ 53 := by
      have hdiv : (num : ℚ) / den / 2 ^ q < 2 ^ 53 - 1 / 2 := by
        rw [hq, div_lt_iff₀ (by positivity)]
        exact h.trans_eq limit_eq
      linarith
    have hr' : r < 2 ^ 53 := by exact_mod_cast hr
    omega

/-! ## Decimals -/

/-- The value of a decimal. -/
def Scientific.value (s : Scientific) : ℚ := s.digits * 10 ^ s.scale

theorem Scientific.value_eq (s : Scientific) :
    s.value = (s.digits * 10 ^ s.scale.toNat : Nat) / (10 ^ (-s.scale).toNat : Nat) := by
  rw [value, ← toNat_div_toNat 10 s.scale]
  push_cast
  ring

/-- A decimal is at least the power of ten of its first digit. -/
theorem Scientific.pow_exponent_le {s : Scientific} (h : s.digits ≠ 0) :
    (10 : ℚ) ^ s.exponent ≤ s.value := by
  have hlen : 10 ^ ((decimal s.digits).length - 1) ≤ s.digits := by
    by_contra hlt
    rcases Nat.eq_zero_or_pos ((decimal s.digits).length - 1) with hz | hpos
    · rw [hz] at hlt
      omega
    · have hle := (Nat.length_toDigits_le_iff (b := 10) (by decide) hpos).mpr (Nat.not_le.mp hlt)
      rw [decimal] at hpos hle
      omega
  have hpos : 0 < (decimal s.digits).length := Nat.length_toDigits_pos
  have hcast : (10 : ℚ) ^ ((decimal s.digits).length - 1) ≤ s.digits := by exact_mod_cast hlen
  rw [exponent, value, show s.scale + ((decimal s.digits).length : ℤ) - 1 =
      ((decimal s.digits).length - 1 : Nat) + s.scale by omega, zpow_add₀ (by norm_num),
    zpow_natCast]
  exact mul_le_mul_of_nonneg_right hcast (by positivity)

/-- A decimal below the limit is read as a finite number. -/
theorem exists_nearest? {s : Scientific} (h : s.value < limit) :
    ∃ x, nearest? s.digits s.scale = some x := by
  rw [nearest?]
  dsimp only
  split
  · exact ⟨_, rfl⟩
  · next hsmall =>
      have hdigits : s.digits ≠ 0 := fun hz => hsmall (.inl hz)
      have hexponent : s.exponent < 310 :=
        (zpow_lt_zpow_iff_right₀ (by norm_num : (1 : ℚ) < 10)).mp
          ((s.pow_exponent_le hdigits).trans_lt (h.trans limit_lt_pow_ten))
      rw [Scientific.exponent, decimal] at hexponent
      have hbits : nearestBits (s.digits * 10 ^ s.scale.toNat) (10 ^ (-s.scale).toNat) <
          infiniteBits := by
        refine nearestBits_lt ?_ (Nat.pow_pos (by decide)) ?_
        · exact Nat.mul_pos (Nat.pos_of_ne_zero hdigits) (Nat.pow_pos (by decide))
        · rwa [← s.value_eq]
      rw [if_neg (by omega), if_pos hbits]
      exact ⟨_, rfl⟩

/-! ## The shortest decimal -/

namespace Scientific

/-- Zeros at the end of the digits are dropped without a change of the value, and never
all digits. -/
theorem strip_spec (fuel : Nat) (s : Scientific) :
    (s.strip fuel).value = s.value ∧ s.scale ≤ (s.strip fuel).scale ∧
      ((s.strip fuel).digits = 0 → s.digits = 0) := by
  induction fuel generalizing s with
  | zero => exact ⟨rfl, Int.le_refl _, id⟩
  | succ fuel ih =>
      rw [strip]
      split
      · next h =>
          obtain ⟨hvalue, hscale, hzero⟩ := ih ⟨s.digits / 10, s.scale + 1⟩
          have hdigits : s.digits = s.digits / 10 * 10 := by omega
          refine ⟨hvalue.trans ?_, Int.le_trans (Int.le_of_lt (Int.lt_succ _)) hscale,
            fun hz => ?_⟩
          · have hcast : (s.digits : ℚ) = (s.digits / 10 : Nat) * 10 := by exact_mod_cast hdigits
            rw [value, value, hcast, zpow_add_one₀ (by norm_num)]
            ring
          · have hten : s.digits / 10 = 0 := hzero hz
            omega
      · exact ⟨rfl, Int.le_refl _, id⟩

end Scientific

namespace Binary

/-- A finite number is made of 53 bits and a power of two up to 971. -/
structure InRange (b : Binary) : Prop where
  mantissa_lt : b.mantissa < 2 ^ 53
  exponent_ge : -1074 ≤ b.exponent
  exponent_le : b.exponent ≤ 971

/-- What is taken apart is in range. -/
theorem inRange_of_ofBits? {bits : Nat} {b : Binary} (h : ofBits? bits = some b) : b.InRange := by
  rw [ofBits?] at h
  split at h
  · cases h
  · split at h <;> cases h
    · exact ⟨show bits % 2 ^ 52 < 2 ^ 53 by omega, show (-1074 : Int) ≤ -1074 by decide,
        show (-1074 : Int) ≤ 971 by decide⟩
    · refine ⟨show 2 ^ 52 + bits % 2 ^ 52 < 2 ^ 53 by omega, ?_, ?_⟩
      · change (-1074 : Int) ≤ ((bits / 2 ^ 52 % 2 ^ 11 : Nat) : Int) - 1075
        omega
      · change ((bits / 2 ^ 52 % 2 ^ 11 : Nat) : Int) - 1075 ≤ 971
        omega

/-- The first of two numbers that passes a test. -/
theorem passes_of_first {p : Nat → Bool} {a b c : Nat}
    (h : (if p a then some a else if p b then some b else none) = some c) : p c = true := by
  split at h
  · next ha => exact Option.some.inj h ▸ ha
  · split at h
    · next hb => exact Option.some.inj h ▸ hb
    · cases h

theorem Grid.contains_of_nearest? {g : Grid} {c : Nat} (h : g.nearest? = some c) :
    g.contains c = true :=
  passes_of_first h

/-- The common unit of an interval and its grid. -/
theorem grid_eq (b : Binary) (scale : Int) :
    ∃ u : ℚ, 0 < u ∧ ((b.grid scale).step : ℚ) = 10 ^ scale * u ∧
      ((b.grid scale).high : ℚ) = (4 * b.mantissa + 2) * 2 ^ (b.exponent - 2) * u := by
  refine ⟨10 ^ (-scale).toNat * 2 ^ (2 - b.exponent).toNat, by positivity, ?_, ?_⟩
  · rw [grid, ← toNat_div_toNat 10 scale]
    push_cast
    field_simp
  · rw [grid, ← toNat_div_toNat 2 (b.exponent - 2), neg_sub]
    push_cast
    field_simp

/-- What lies in the interval of a number in range is below the limit. -/
theorem value_lt_of_contains {b : Binary} (hb : b.InRange) {scale : Int} {c : Nat}
    (h : (b.grid scale).contains c = true) : (⟨c, scale⟩ : Scientific).value < limit := by
  obtain ⟨u, hu, hstep, hhigh⟩ := b.grid_eq scale
  have hpow : (2 : ℚ) ^ (b.exponent - 2) ≤ 2 ^ (969 : ℤ) :=
    zpow_le_zpow_right₀ one_le_two (by have := hb.exponent_le; omega)
  have hlimit : limit = (2 ^ 55 - 2) * 2 ^ (969 : ℤ) := by
    rw [limit, show (970 : ℤ) = 969 + 1 from rfl, zpow_add_one₀ two_ne_zero]
    ring
  have hpos : (0 : ℚ) < 2 ^ (969 : ℤ) := by positivity
  have hclosed : (b.grid scale).closed = (b.mantissa % 2 == 0) := rfl
  have hmantissa := hb.mantissa_lt
  rw [Scientific.value, hlimit]
  -- the greatest mantissa is odd, so its interval is open
  by_cases heven : b.mantissa % 2 = 0
  · rw [Grid.contains, hclosed, heven, beq_self_eq_true, if_pos rfl, Bool.and_eq_true,
      decide_eq_true_eq, decide_eq_true_eq] at h
    have hle : (c : ℚ) * (b.grid scale).step ≤ (b.grid scale).high := by exact_mod_cast h.2
    rw [hstep, hhigh, ← mul_assoc] at hle
    have hm : (4 * b.mantissa + 2 : ℚ) ≤ 2 ^ 55 - 6 := by
      have hnat : 4 * b.mantissa + 2 + 6 ≤ 2 ^ 55 := by omega
      have hcast : (4 * b.mantissa + 2 + 6 : ℚ) ≤ 2 ^ 55 := by exact_mod_cast hnat
      linarith
    calc (c : ℚ) * 10 ^ scale ≤ (4 * b.mantissa + 2) * 2 ^ (b.exponent - 2) :=
          le_of_mul_le_mul_right hle hu
      _ ≤ (2 ^ 55 - 6) * 2 ^ (969 : ℤ) := mul_le_mul hm hpow (by positivity) (by norm_num)
      _ < (2 ^ 55 - 2) * 2 ^ (969 : ℤ) := mul_lt_mul_of_pos_right (by norm_num) hpos
  · rw [Grid.contains, hclosed, beq_eq_false_iff_ne.mpr heven, if_neg (by decide),
      Bool.and_eq_true, decide_eq_true_eq, decide_eq_true_eq] at h
    have hlt : (c : ℚ) * (b.grid scale).step < (b.grid scale).high := by exact_mod_cast h.2
    rw [hstep, hhigh, ← mul_assoc] at hlt
    have hm : (4 * b.mantissa + 2 : ℚ) ≤ 2 ^ 55 - 2 := by
      have hnat : 4 * b.mantissa + 2 + 2 ≤ 2 ^ 55 := by omega
      have hcast : (4 * b.mantissa + 2 + 2 : ℚ) ≤ 2 ^ 55 := by exact_mod_cast hnat
      linarith
    calc (c : ℚ) * 10 ^ scale < (4 * b.mantissa + 2) * 2 ^ (b.exponent - 2) :=
          lt_of_mul_lt_mul_right hlt hu.le
      _ ≤ (2 ^ 55 - 2) * 2 ^ (969 : ℤ) := mul_le_mul hm hpow (by positivity) (by norm_num)

/-- What lies in the interval of a number other than zero is not zero. -/
theorem ne_zero_of_contains {b : Binary} (hb : b.mantissa ≠ 0) {scale : Int} {c : Nat}
    (h : (b.grid scale).contains c = true) : c ≠ 0 := by
  rintro rfl
  have hunit : 0 < 2 ^ (b.exponent - 2).toNat * 10 ^ (-scale).toNat :=
    Nat.mul_pos (Nat.pow_pos (by decide)) (Nat.pow_pos (by decide))
  have hlow : 0 < (b.grid scale).low := by
    refine Nat.mul_pos ?_ hunit
    split <;> omega
  rw [Grid.contains, Nat.zero_mul] at h
  split at h
  · simp at h
    omega
  · simp at h

/-! ## What is printed -/

/-- The shortest decimal of a number is zero, or a point of a grid in its interval with the
zeros at its end dropped. -/
theorem shortest_cases (b : Binary) :
    b.shortest = ⟨0, 0⟩ ∨ ∃ n c : Nat, n < 17 ∧ b.mantissa ≠ 0 ∧
      (b.grid (leadingExponent b.fraction.1 b.fraction.2 - n)).contains c = true ∧
      b.shortest = (⟨c, leadingExponent b.fraction.1 b.fraction.2 - n⟩ : Scientific).strip 17 := by
  rw [shortest]
  split
  · exact .inl rfl
  · next hm =>
      dsimp only
      generalize hhit : (List.range 17).findSome? _ = hit
      cases hit with
      | none => exact .inl rfl
      | some s =>
          obtain ⟨n, hn, hs⟩ := List.exists_of_findSome?_eq_some hhit
          obtain ⟨c, hc, rfl⟩ := Option.map_eq_some_iff.mp hs
          exact .inr ⟨n, c, List.mem_range.mp hn, hm, Grid.contains_of_nearest? hc, rfl⟩

/-- The shortest decimal of a number in range is read as a finite number. -/
theorem value_shortest_lt {b : Binary} (hb : b.InRange) : b.shortest.value < limit := by
  rcases b.shortest_cases with h | ⟨n, c, -, -, hc, h⟩
  · rw [h, Scientific.value, Nat.cast_zero, zero_mul, limit]
    positivity
  · rw [h, (Scientific.strip_spec 17 _).1]
    exact value_lt_of_contains hb hc

/-- The digits of denominators are few. -/
theorem length_decimal_pow_le (k : Nat) : (decimal (2 ^ k)).length ≤ k + 1 :=
  (Nat.length_toDigits_le_iff (by decide) (Nat.succ_pos k)).mpr <|
    calc 2 ^ k ≤ 10 ^ k := Nat.pow_le_pow_left (by decide) k
      _ < 10 ^ (k + 1) := Nat.pow_lt_pow_right (by decide) (Nat.lt_succ_self k)

/-- The first digit of the shortest decimal is not far from the point. -/
theorem exponent_shortest_bounds {b : Binary} (hb : b.InRange) :
    -1100 ≤ b.shortest.exponent ∧ b.shortest.exponent < 310 := by
  have hlt := value_shortest_lt hb
  rcases b.shortest_cases with h | ⟨n, c, hn, hm, hc, h⟩
  · rw [h]
    decide
  · obtain ⟨-, hscale, hzero⟩ := Scientific.strip_spec 17
      ⟨c, leadingExponent b.fraction.1 b.fraction.2 - n⟩
    rw [← h] at hscale hzero
    have hdigits : b.shortest.digits ≠ 0 := fun hz => ne_zero_of_contains hm hc (hzero hz)
    refine ⟨?_, (zpow_lt_zpow_iff_right₀ (by norm_num : (1 : ℚ) < 10)).mp
      ((Scientific.pow_exponent_le hdigits).trans_lt (hlt.trans limit_lt_pow_ten))⟩
    have hleading : -1076 ≤ leadingExponent b.fraction.1 b.fraction.2 := by
      have hlen := length_decimal_pow_le (-b.exponent).toNat
      have hden : b.fraction.2 = 2 ^ (-b.exponent).toNat := rfl
      have hleast := hb.exponent_ge
      rw [leadingExponent, hden]
      split <;> omega
    have hpos : 0 < (decimal b.shortest.digits).length := Nat.length_toDigits_pos
    rw [Scientific.exponent]
    dsimp only at hscale
    omega

end Binary

end JobQueue.Decimal
