import JobQueue.Power

/-!
# JobQueue.Text.Digits

Numbers as runs of decimal digits: as many as needed (`decimal`), a fixed count
with zeros in front (`padded`), and the way back (`value`).
-/

namespace JobQueue.Text

/-! ## Single digits -/

/-- Whether a character is one of the ten ASCII digits. -/
def isDigit (c : Char) : Bool := '0' ≤ c && c ≤ '9'

/-- The number a digit stands for. -/
def digitValue (c : Char) : Nat := c.toNat - 48

/-- The digit for `n % 10`. -/
def digit (n : Nat) : Char := Char.ofNat (48 + n % 10)

theorem isDigit_digit (n : Nat) : isDigit (digit n) = true := by
  have h : ∀ k : Fin 10, isDigit (Char.ofNat (48 + k.val)) = true := by decide
  exact h ⟨n % 10, Nat.mod_lt _ (by decide)⟩

theorem digitValue_digit (n : Nat) : digitValue (digit n) = n % 10 := by
  have h : ∀ k : Fin 10, digitValue (Char.ofNat (48 + k.val)) = k.val := by decide
  exact h ⟨n % 10, Nat.mod_lt _ (by decide)⟩

/-! ## Runs of digits -/

/-- The number written by a run of digits, the most significant first. -/
def value (cs : List Char) : Nat := cs.foldl (fun n c => 10 * n + digitValue c) 0

/-- A number in exactly `width` digits; higher digits are lost. -/
def padded : Nat → Nat → List Char
  | 0, _ => []
  | width + 1, n => padded width (n / 10) ++ [digit n]

/-- A number in as many digits as it has, at least one. -/
def decimal (n : Nat) : List Char := Nat.toDigits 10 n

@[simp] theorem length_padded (width n : Nat) : (padded width n).length = width := by
  induction width generalizing n with
  | zero => rfl
  | succ w ih => simp [padded, ih]

/-- Reading back a padded number gives it modulo the width. -/
theorem value_padded (width n : Nat) : value (padded width n) = n % 10 ^ width := by
  induction width generalizing n with
  | zero => simp [padded, value, Nat.mod_one]
  | succ w ih =>
      have hd := ih (n / 10)
      simp only [value] at hd
      simp only [padded, value, List.foldl_append, List.foldl_cons, List.foldl_nil,
        hd, digitValue_digit]
      rw [Nat.pow_succ, Nat.mul_comm (10 ^ w) 10, Nat.mod_mul]
      omega

/-- The text of an integer, with a sign when negative. -/
def signed (n : Int) : List Char :=
  if n < 0 then '-' :: decimal n.natAbs else decimal n.natAbs

end JobQueue.Text
