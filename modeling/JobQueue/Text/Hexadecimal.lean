import JobQueue.Text.Digits

/-!
# JobQueue.Text.Hexadecimal

Numbers as runs of hexadecimal digits. Digits are written in lower case and read
in either.
-/

namespace JobQueue.Text

/-- The digit for `n % 16`. -/
def hexDigit (n : Nat) : Char := Nat.digitChar (n % 16)

/-- The number of a hexadecimal digit. -/
def hexValue? (c : Char) : Option Nat :=
  if isDigit c then some (c.toNat - 48)
  else if 'a' ≤ c && c ≤ 'f' then some (c.toNat - 87)
  else if 'A' ≤ c && c ≤ 'F' then some (c.toNat - 55)
  else none

theorem hexValue?_hexDigit (n : Nat) : hexValue? (hexDigit n) = some (n % 16) := by
  have h : ∀ k : Fin 16, hexValue? (Nat.digitChar k.val) = some k.val := by decide
  exact h ⟨n % 16, Nat.mod_lt _ (by decide)⟩

/-- A number in as many digits as it has, at least one. -/
def hexadecimal (n : Nat) : List Char := Nat.toDigits 16 n

/-- A number in exactly `width` digits; higher digits are lost. -/
def paddedHex : Nat → Nat → List Char
  | 0, _ => []
  | width + 1, n => paddedHex width (n / 16) ++ [hexDigit n]

/-- Read digits after a number that has been read. -/
def hexFrom : Nat → List Char → Option Nat
  | n, [] => some n
  | n, c :: cs =>
      match hexValue? c with
      | some d => hexFrom (16 * n + d) cs
      | none => none

/-- The number written by a run of digits, the most significant first. -/
def hexNumber? (cs : List Char) : Option Nat := hexFrom 0 cs

@[simp] theorem length_paddedHex (width n : Nat) : (paddedHex width n).length = width := by
  induction width generalizing n with
  | zero => rfl
  | succ w ih => simp [paddedHex, ih]

theorem hexFrom_append (n : Nat) (xs ys : List Char) :
    hexFrom n (xs ++ ys) = (hexFrom n xs).bind fun m => hexFrom m ys := by
  induction xs generalizing n with
  | nil => rfl
  | cons x xs ih =>
      simp only [List.cons_append, hexFrom]
      cases hexValue? x with
      | none => rfl
      | some d => exact ih _

/-- Reading back a padded number gives it modulo the width. -/
theorem hexNumber?_paddedHex (width n : Nat) :
    hexNumber? (paddedHex width n) = some (n % 16 ^ width) := by
  induction width generalizing n with
  | zero => simp [paddedHex, hexNumber?, hexFrom, Nat.mod_one]
  | succ w ih =>
      have hd := ih (n / 16)
      unfold hexNumber? at hd ⊢
      simp only [paddedHex, hexFrom_append, hd, Option.bind_some, hexFrom, hexValue?_hexDigit]
      rw [Nat.pow_succ, Nat.mul_comm (16 ^ w) 16, Nat.mod_mul]
      congr 1
      omega

end JobQueue.Text
