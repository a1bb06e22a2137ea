import JobQueue.Text.Digits

/-!
# JobQueue.Proofs.Digits

Numbers in decimal digits are digits, and at least one, and name the number. Numbers of one
width are in the order of their digits (`padded_append_lt`).
-/

namespace JobQueue.Text

theorem isDigit_iff {c : Char} : isDigit c = true ↔ 48 ≤ c.toNat ∧ c.toNat ≤ 57 := by
  simp only [isDigit, Bool.and_eq_true, decide_eq_true_eq, Char.le_def, UInt32.le_iff_toNat_le]
  exact Iff.rfl

theorem isDigit_of_mem_padded {width n : Nat} {c : Char} (h : c ∈ padded width n) :
    isDigit c = true := by
  induction width generalizing n with
  | zero => exact absurd h List.not_mem_nil
  | succ w ih =>
      rw [padded, List.mem_append, List.mem_singleton] at h
      rcases h with h | rfl
      · exact ih h
      · exact isDigit_digit n

theorem padded_ne_nil {width : Nat} (n : Nat) (h : width ≠ 0) : padded width n ≠ [] := by
  intro hnil
  have hlen := length_padded width n
  rw [hnil] at hlen
  exact h hlen.symm

theorem isDigit_of_mem_decimal {n : Nat} {c : Char} (h : c ∈ decimal n) : isDigit c = true := by
  have hdigit := Nat.isDigit_of_mem_toDigits (by decide) (by decide) h
  simp only [Char.isDigit, Bool.and_eq_true, decide_eq_true_eq, ge_iff_le, UInt32.le_iff_toNat_le]
    at hdigit
  exact isDigit_iff.mpr hdigit

/-- Zeros before a number do not change it. -/
theorem value_zeros_decimal (zeros n : Nat) :
    value (List.replicate zeros '0' ++ decimal n) = n := by
  change Nat.ofDigitChars 10 (List.replicate zeros '0' ++ Nat.toDigits 10 n) 0 = n
  rw [Nat.ofDigitChars_append, Nat.ofDigitChars_replicate_zero, Nat.mul_zero,
    Nat.ofDigitChars_ten_toDigits]

/-! ## Order -/

theorem digit_lt {m n : Nat} : digit m < digit n ↔ m % 10 < n % 10 := by
  have h : ∀ i j : Fin 10, Char.ofNat (48 + i.val) < Char.ofNat (48 + j.val) ↔ i.val < j.val := by
    decide
  exact h ⟨m % 10, Nat.mod_lt _ (by decide)⟩ ⟨n % 10, Nat.mod_lt _ (by decide)⟩

theorem digit_inj {m n : Nat} : digit m = digit n ↔ m % 10 = n % 10 := by
  rw [← digitValue_digit m, ← digitValue_digit n]
  constructor
  · exact congrArg digitValue
  · intro h
    rw [digitValue_digit, digitValue_digit] at h
    rw [digit, digit, h]

/-- Texts that begin with numbers of one width are in the order of the numbers, and then
of what follows. -/
theorem padded_append_lt {width m n : Nat} (hm : m < 10 ^ width) (hn : n < 10 ^ width)
    (cs ds : List Char) :
    padded width m ++ cs < padded width n ++ ds ↔ m < n ∨ m = n ∧ cs < ds := by
  induction width generalizing m n cs ds with
  | zero =>
      rw [Nat.pow_zero, Nat.lt_one_iff] at hm hn
      simp [padded, hm, hn]
  | succ width ih =>
      have hm' : m / 10 < 10 ^ width := Nat.div_lt_of_lt_mul (by rwa [Nat.mul_comm, ← Nat.pow_succ])
      have hn' : n / 10 < 10 ^ width := Nat.div_lt_of_lt_mul (by rwa [Nat.mul_comm, ← Nat.pow_succ])
      rw [padded, padded, List.append_assoc, List.append_assoc, ih hm' hn', List.singleton_append,
        List.singleton_append, List.cons_lt_cons_iff, digit_lt, digit_inj]
      -- the last digit decides between numbers that agree before it
      constructor
      · rintro (h | ⟨h, h' | ⟨h', hlt⟩⟩)
        · exact .inl (by omega)
        · exact .inl (by omega)
        · exact .inr ⟨by omega, hlt⟩
      · rintro (h | ⟨rfl, hlt⟩)
        · by_cases heq : m / 10 = n / 10
          · exact .inr ⟨heq, .inl (by omega)⟩
          · exact .inl (by omega)
        · exact .inr ⟨rfl, .inr ⟨rfl, hlt⟩⟩

end JobQueue.Text
