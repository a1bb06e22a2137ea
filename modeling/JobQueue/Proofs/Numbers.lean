import JobQueue.Proofs.Reading
import JobQueue.Proofs.Rounding

/-!
# JobQueue.Proofs.Numbers

A number is read back from its text, up to where the text goes on with something else.

- A whole number of 64 bits is read as it was written (`scalar_int`).
- A number of double precision is read as some number (`exists_scalar_float`): the text of
  its shortest decimal, with an exponent or without, is read as a decimal of the same value
  (`number_scientific`), and that has a nearest number.
-/

namespace JobQueue

/-! ## Digits -/

namespace Text

theorem value_cons (c : Char) (cs : List Char) :
    value (c :: cs) = cs.foldl (fun n c => 10 * n + digitValue c) (digitValue c) := by
  rw [value, List.foldl_cons, Nat.mul_zero, Nat.zero_add]

/-- Digits that follow others. -/
theorem foldl_digits (cs : List Char) (n : Nat) :
    cs.foldl (fun n c => 10 * n + digitValue c) n = n * 10 ^ cs.length + value cs := by
  induction cs generalizing n with
  | nil => simp [value]
  | cons c cs ih =>
      rw [value_cons, List.foldl_cons, ih, ih (digitValue c), List.length_cons, Nat.pow_succ]
      ring

theorem value_append (cs ds : List Char) :
    value (cs ++ ds) = value cs * 10 ^ ds.length + value ds := by
  rw [value, List.foldl_append, foldl_digits]
  rfl

theorem value_decimal (n : Nat) : value (decimal n) = n := value_zeros_decimal 0 n

theorem value_zeros (n : Nat) : value (List.replicate n '0') = 0 := by
  induction n with
  | zero => rfl
  | succ n ih =>
      rw [List.replicate_succ, value_cons, foldl_digits, ih, show digitValue '0' = 0 from rfl,
        Nat.zero_mul]

theorem isDigit_of_mem_zeros {n : Nat} {c : Char} (h : c ∈ List.replicate n '0') :
    isDigit c = true := by
  rw [(List.mem_replicate.mp h).2]
  decide

/-- A positive number has no zero in front. -/
theorem head_decimal {n : Nat} (h : n ≠ 0) : (decimal n).head? ≠ some '0' := by
  induction n using Nat.strongRecOn with
  | ind n ih =>
      rw [decimal, Nat.toDigits_eq_if (by decide)]
      split
      · next hlt =>
          have hall : ∀ k : Fin 10, k.val ≠ 0 → Nat.digitChar k.val ≠ '0' := by decide
          have hne := hall ⟨n, hlt⟩ h
          simpa using hne
      · next hge =>
          have hne := ih (n / 10) (by omega) (by omega)
          rw [List.head?_append_of_ne_nil _ Nat.toDigits_ne_nil]
          exact hne

/-- A run of digits ends where something else follows. -/
theorem span_digits {ds rest : List Char} (hds : ∀ c ∈ ds, isDigit c = true)
    (hrest : Json.startsWithDigit rest = false) :
    (ds ++ rest).takeWhile isDigit = ds ∧ (ds ++ rest).dropWhile isDigit = rest := by
  have hstop : rest.takeWhile isDigit = [] ∧ rest.dropWhile isDigit = rest := by
    cases rest with
    | nil => exact ⟨rfl, rfl⟩
    | cons c cs =>
        have hc : isDigit c = false := hrest
        simp [hc]
  rw [List.takeWhile_append_of_pos hds, List.dropWhile_append_of_pos hds, hstop.1, hstop.2,
    List.append_nil]
  exact ⟨rfl, rfl⟩

end Text

namespace Json

open Text

/-- The digits of a number before its point: no zero in front of others. -/
structure IsWholePart (ds : List Char) : Prop where
  ne_nil : ds ≠ []
  digits : ∀ c ∈ ds, isDigit c = true
  head : ds.head? = some '0' → ds = ['0']

theorem isWholePart_decimal (n : Nat) : IsWholePart (decimal n) where
  ne_nil := Nat.toDigits_ne_nil
  digits _ := isDigit_of_mem_decimal
  head h := by
    by_cases hn : n = 0
    · rw [hn]
      rfl
    · exact absurd h (head_decimal hn)

namespace EndsValue

variable {rest : List Char}

theorem startsWithDigit (h : EndsValue rest) : startsWithDigit rest = false := by
  cases rest with
  | nil => rfl
  | cons c cs =>
      rcases h c rfl with rfl | rfl | rfl <;> rfl

/-- A whole number ends with its digits. -/
theorem afterWhole (h : EndsValue rest) (positive : Bool) (digits : Nat) :
    afterWhole positive digits rest =
      if positive && digits < 2 ^ 64 then .ok (.int digits, rest)
      else if !positive && 0 < digits && digits ≤ 2 ^ 63 then .ok (.int (-digits), rest)
      else scaled positive digits 0 rest := by
  cases rest with
  | nil => rfl
  | cons c cs =>
      rcases h c rfl with rfl | rfl | rfl <;> rfl

end EndsValue

/-- The digits before a point are read up to their end. -/
theorem number_wholePart {ds rest : List Char} (h : IsWholePart ds)
    (hrest : startsWithDigit rest = false) (positive : Bool) :
    number positive (ds ++ rest) = afterWhole positive (Text.value ds) rest := by
  obtain ⟨d, t, rfl⟩ := List.exists_cons_of_ne_nil h.ne_nil
  have hd := h.digits d List.mem_cons_self
  rw [List.cons_append, number]
  by_cases hzero : d = '0'
  · have hnil : t = [] := by
      have hone := h.head (by rw [hzero]; rfl)
      rw [hzero] at hone
      simpa using hone
    rw [if_pos hzero, hnil, List.nil_append, hrest, hzero]
    rfl
  · obtain ⟨htake, hdrop⟩ := span_digits (fun c hc => h.digits c (List.mem_cons_of_mem _ hc)) hrest
    rw [if_neg hzero, if_pos hd, htake, hdrop]

/-- The digits after a point are read up to their end. -/
theorem fractionPart_digits {ds rest : List Char} (hne : ds ≠ [])
    (hds : ∀ c ∈ ds, isDigit c = true) (hrest : EndsValue rest) (positive : Bool) (whole : Nat) :
    fractionPart positive whole (ds ++ rest) =
      scaled positive (whole * 10 ^ ds.length + Text.value ds) (-ds.length) rest := by
  obtain ⟨htake, hdrop⟩ := span_digits hds hrest.startsWithDigit
  have hempty : ds.isEmpty = false := by simpa using hne
  rw [fractionPart, htake, hdrop]
  simp only [hempty]
  cases rest with
  | nil => rfl
  | cons c cs =>
      rcases hrest c rfl with rfl | rfl | rfl <;> rfl

/-- The digits after a point may be followed by an exponent. -/
theorem fractionPart_exponent {ds : List Char} (hne : ds ≠ [])
    (hds : ∀ c ∈ ds, isDigit c = true) (cs : List Char) (positive : Bool) (whole : Nat) :
    fractionPart positive whole (ds ++ 'e' :: cs) =
      exponentPart positive (whole * 10 ^ ds.length + Text.value ds) (-ds.length) cs := by
  have hrest : startsWithDigit ('e' :: cs) = false := rfl
  obtain ⟨htake, hdrop⟩ := span_digits hds hrest
  have hempty : ds.isEmpty = false := by simpa using hne
  rw [fractionPart, htake, hdrop]
  simp only [hempty]
  rfl

/-- Digits are taken as long as their number is below the bound. -/
theorem takeDigits_digits {bound n : Nat} {ds rest : List Char}
    (hds : ∀ c ∈ ds, isDigit c = true) (hrest : startsWithDigit rest = false)
    (hbound : n * 10 ^ ds.length + Text.value ds < bound) :
    takeDigits bound n (ds ++ rest) = (n * 10 ^ ds.length + Text.value ds, rest) := by
  induction ds generalizing n with
  | nil =>
      rw [List.length_nil, Nat.pow_zero, Nat.mul_one, List.nil_append,
        show Text.value [] = 0 from rfl, Nat.add_zero]
      cases rest with
      | nil => rfl
      | cons c cs =>
          have hc : isDigit c = false := hrest
          simp [takeDigits, hc]
  | cons d ds ih =>
      have hd := hds d List.mem_cons_self
      have hvalue : n * 10 ^ (d :: ds).length + Text.value (d :: ds) =
          (n * 10 + digitValue d) * 10 ^ ds.length + Text.value ds := by
        rw [value_cons, foldl_digits, List.length_cons, Nat.pow_succ]
        ring
      rw [hvalue] at hbound ⊢
      have hpos : 1 ≤ 10 ^ ds.length := Nat.pow_pos (by decide)
      have hlt : n * 10 + digitValue d < bound := by nlinarith
      rw [List.cons_append, takeDigits, hd, Bool.true_and, if_pos (by simpa using hlt)]
      exact ih (fun c hc => hds c (List.mem_cons_of_mem _ hc)) hbound

/-- The digits of an exponent are read up to their end. -/
theorem takeDigits_decimal {n : Nat} (hn : n < 2 ^ 31) {rest : List Char}
    (hrest : EndsValue rest) :
    ∃ d t, decimal n = d :: t ∧ isDigit d = true ∧
      takeDigits (2 ^ 31) (digitValue d) (t ++ rest) = (n, rest) := by
  obtain ⟨d, t, hdt⟩ := List.exists_cons_of_ne_nil (isWholePart_decimal n).ne_nil
  have hdigits := (isWholePart_decimal n).digits
  have hvalue := value_decimal n
  rw [hdt] at hdigits hvalue
  rw [value_cons, foldl_digits] at hvalue
  refine ⟨d, t, hdt, hdigits d List.mem_cons_self, ?_⟩
  rw [takeDigits_digits (fun c hc => hdigits c (List.mem_cons_of_mem _ hc))
    hrest.startsWithDigit (by omega), hvalue]

/-- An exponent is read with its sign. -/
theorem exponentPart_signed {e : Int} (he : e.natAbs < 2 ^ 31) {rest : List Char}
    (hrest : EndsValue rest) (positive : Bool) (digits : Nat) (scale : Int) :
    exponentPart positive digits scale
        ((if e < 0 then [] else numberForm.plus) ++ (signed e ++ rest)) =
      scaled positive digits (scale + e) rest := by
  obtain ⟨d, t, hdt, hd, htake⟩ := takeDigits_decimal he hrest
  by_cases hneg : e < 0
  · have htext : (if e < 0 then [] else numberForm.plus) ++ (signed e ++ rest) =
        '-' :: d :: (t ++ rest) := by
      rw [if_pos hneg, signed, if_pos hneg, hdt]
      rfl
    have hscale : scale - (e.natAbs : Int) = scale + e := by omega
    rw [htext, exponentPart]
    simp only [hd, htake, hrest.startsWithDigit, hscale]
    rfl
  · have htext : (if e < 0 then [] else numberForm.plus) ++ (signed e ++ rest) =
        '+' :: d :: (t ++ rest) := by
      rw [if_neg hneg, signed, if_neg hneg, hdt]
      rfl
    have hscale : scale + (e.natAbs : Int) = scale + e := by omega
    rw [htext, exponentPart]
    simp only [hd, htake, hrest.startsWithDigit, hscale]
    rfl

/-! ## Decimals -/

open Decimal

/-- Digits around a point are read as one decimal. -/
theorem number_point {whole fraction : List Char} (hwhole : IsWholePart whole)
    (hne : fraction ≠ []) (hfraction : ∀ c ∈ fraction, isDigit c = true) {rest : List Char}
    (hrest : EndsValue rest) (positive : Bool) :
    number positive (whole ++ '.' :: (fraction ++ rest)) =
      scaled positive (Text.value (whole ++ fraction)) (-fraction.length) rest := by
  rw [number_wholePart hwhole rfl, afterWhole, fractionPart_digits hne hfraction hrest,
    value_append]

/-- A decimal whose digits are not zero, or that is zero without a power of ten. -/
def IsPlain (s : Scientific) : Prop := s.digits ≠ 0 ∨ s = ⟨0, 0⟩

/-- Zeros behind a number that is not zero belong to it. -/
theorem isWholePart_zeros {s : Scientific} (hs : IsPlain s) :
    IsWholePart (decimal s.digits ++ List.replicate s.scale.toNat '0') := by
  rcases hs with hdigits | rfl
  · have hne := (isWholePart_decimal s.digits).ne_nil
    refine ⟨by simp [hne], fun c hc => ?_, fun hhead => ?_⟩
    · rcases List.mem_append.mp hc with hc | hc
      · exact isDigit_of_mem_decimal hc
      · exact isDigit_of_mem_zeros hc
    · rw [List.head?_append_of_ne_nil _ hne] at hhead
      exact absurd hhead (head_decimal hdigits)
  · exact isWholePart_decimal 0

/-- Some first digits of a number that is not zero. -/
theorem isWholePart_take {n k : Nat} (hn : n ≠ 0) (hk : k ≠ 0) :
    IsWholePart ((decimal n).take k) := by
  have hne := (isWholePart_decimal n).ne_nil
  refine ⟨by simp [hne, hk], fun c hc => isDigit_of_mem_decimal (List.mem_of_mem_take hc),
    fun hhead => ?_⟩
  rw [List.head?_take, if_neg hk] at hhead
  exact absurd hhead (head_decimal hn)

/-- A decimal below one has all its digits after the point. -/
theorem number_below_one {s : Scientific} (hneg : s.exponent < 0) (positive : Bool)
    {rest : List Char} (hrest : EndsValue rest) :
    number positive (Form.positional (decimal s.digits) s.exponent ++ rest) =
      scaled positive s.digits s.scale rest := by
  have hexponent : s.exponent = s.scale + (decimal s.digits).length - 1 := rfl
  have hscale : -((List.replicate (-s.exponent - 1).toNat '0' ++ decimal s.digits).length : Int) =
      s.scale := by
    rw [List.length_append, List.length_replicate]
    omega
  have hvalue : Text.value (['0'] ++ (List.replicate (-s.exponent - 1).toNat '0' ++
      decimal s.digits)) = s.digits := by
    rw [List.singleton_append, ← List.cons_append, ← List.replicate_succ]
    exact value_zeros_decimal _ _
  have hwhole : IsWholePart ['0'] := isWholePart_decimal 0
  have hne : List.replicate (-s.exponent - 1).toNat '0' ++ decimal s.digits ≠ [] := by
    simp [(isWholePart_decimal s.digits).ne_nil]
  have hfraction : ∀ c ∈ List.replicate (-s.exponent - 1).toNat '0' ++ decimal s.digits,
      isDigit c = true := fun c hc =>
    (List.mem_append.mp hc).elim isDigit_of_mem_zeros isDigit_of_mem_decimal
  have hpoint := number_point hwhole hne hfraction hrest positive
  rw [hvalue, hscale] at hpoint
  rw [Form.positional, if_pos hneg]
  exact hpoint

/-- A whole decimal has all its digits before the point, with zeros behind them. -/
theorem number_whole {s : Scientific} (hs : IsPlain s) (hscale : 0 ≤ s.scale) (positive : Bool)
    {rest : List Char} (hrest : EndsValue rest) :
    number positive (Form.positional (decimal s.digits) s.exponent ++ rest) =
      scaled positive (s.digits * 10 ^ (s.scale.toNat + 1)) (-1) rest := by
  have hlen : 0 < (decimal s.digits).length := Nat.length_toDigits_pos
  have hexponent : s.exponent = s.scale + (decimal s.digits).length - 1 := rfl
  have hneg : ¬ s.exponent < 0 := by omega
  have htake : (decimal s.digits).take (s.exponent.toNat + 1) = decimal s.digits :=
    List.take_of_length_le (by omega)
  have hdrop : (decimal s.digits).drop (s.exponent.toNat + 1) = [] :=
    List.drop_eq_nil_of_le (by omega)
  have hzeros : s.exponent.toNat + 1 - (decimal s.digits).length = s.scale.toNat := by omega
  have hvalue : Text.value (decimal s.digits ++ List.replicate s.scale.toNat '0' ++ ['0']) =
      s.digits * 10 ^ (s.scale.toNat + 1) := by
    rw [List.append_assoc, ← List.replicate_succ', value_append, value_decimal, value_zeros,
      List.length_replicate, Nat.add_zero]
  have hzero : ∀ c ∈ ['0'], isDigit c = true := fun c hc => by
    rw [List.mem_singleton.mp hc]
    rfl
  have hpoint := number_point (isWholePart_zeros hs) (List.cons_ne_nil '0' []) hzero hrest positive
  rw [hvalue] at hpoint
  simp only [Form.positional, if_neg hneg, htake, hdrop, hzeros, List.isEmpty_nil, if_true]
  simpa using hpoint

/-- Any other decimal has the point between its digits. -/
theorem number_between {s : Scientific} (hn : s.digits ≠ 0) (hneg : ¬ s.exponent < 0)
    (hscale : s.scale < 0) (positive : Bool) {rest : List Char} (hrest : EndsValue rest) :
    number positive (Form.positional (decimal s.digits) s.exponent ++ rest) =
      scaled positive s.digits s.scale rest := by
  have hexponent : s.exponent = s.scale + (decimal s.digits).length - 1 := rfl
  have hlt : s.exponent.toNat + 1 < (decimal s.digits).length := by omega
  have hdrop : (decimal s.digits).drop (s.exponent.toNat + 1) ≠ [] := by
    simpa using hlt
  have hlength : -(((decimal s.digits).drop (s.exponent.toNat + 1)).length : Int) = s.scale := by
    rw [List.length_drop]
    omega
  have hpoint := number_point (isWholePart_take hn (Nat.succ_ne_zero s.exponent.toNat)) hdrop
    (fun c hc => isDigit_of_mem_decimal (List.mem_of_mem_drop hc)) hrest positive
  rw [List.take_append_drop, value_decimal, hlength] at hpoint
  have hzeros : s.exponent.toNat + 1 - ((decimal s.digits).take (s.exponent.toNat + 1)).length =
      0 := by
    rw [List.length_take]
    omega
  simp only [Form.positional, if_neg hneg, hzeros, List.replicate_zero, List.append_nil,
    List.isEmpty_eq_false_iff.mpr hdrop]
  simpa using hpoint

/-- A decimal without a power of ten is read as one of its value. -/
theorem number_positional {s : Scientific} (hs : IsPlain s) :
    ∃ t : Scientific, t.value = s.value ∧ ∀ positive rest, EndsValue rest →
      number positive (Form.positional (decimal s.digits) s.exponent ++ rest) =
        scaled positive t.digits t.scale rest := by
  by_cases hneg : s.exponent < 0
  · exact ⟨s, rfl, fun positive _ hrest => number_below_one hneg positive hrest⟩
  · by_cases hscale : 0 ≤ s.scale
    · -- the zero after the point counts as a digit
      refine ⟨⟨s.digits * 10 ^ (s.scale.toNat + 1), -1⟩, ?_,
        fun positive _ hrest => number_whole hs hscale positive hrest⟩
      obtain ⟨k, hk⟩ := Int.eq_ofNat_of_zero_le hscale
      rw [Scientific.value, Scientific.value, hk, Int.toNat_natCast, zpow_natCast, zpow_neg_one,
        pow_succ]
      push_cast
      field_simp
    · have hn : s.digits ≠ 0 := by
        rcases hs with h | rfl
        · exact h
        · exact absurd (Int.le_refl 0) hscale
      exact ⟨s, rfl, fun positive _ hrest =>
        number_between hn hneg (Int.not_le.mp hscale) positive hrest⟩

/-- A decimal with a power of ten is read as one of its value. -/
theorem number_exponential {s : Scientific} (hn : s.digits ≠ 0)
    (hlo : -1100 ≤ s.exponent) (hhi : s.exponent < 310) {rest : List Char}
    (hrest : EndsValue rest) (positive : Bool) :
    number positive (Form.exponential numberForm.plus (decimal s.digits) s.exponent ++ rest) =
      scaled positive s.digits s.scale rest := by
  obtain ⟨d, t, hdt⟩ := List.exists_cons_of_ne_nil (isWholePart_decimal s.digits).ne_nil
  have hwhole : IsWholePart [d] := by
    have h := isWholePart_take (k := 1) hn (by decide)
    rwa [hdt] at h
  have hdigits := (isWholePart_decimal s.digits).digits
  have hvalue := value_decimal s.digits
  have hexponent : s.exponent = s.scale + (decimal s.digits).length - 1 := rfl
  have hread := exponentPart_signed (e := s.exponent) (by omega) hrest positive s.digits
  rw [hdt] at hdigits hvalue hexponent
  rw [Form.exponential, hdt]
  cases t with
  | nil =>
      have hscale : 0 + s.exponent = s.scale := by simp at hexponent; omega
      have hstop : startsWithDigit ('e' :: ((if s.exponent < 0 then [] else numberForm.plus) ++
          (signed s.exponent ++ rest))) = false := rfl
      have hsplit := number_wholePart hwhole hstop positive
      rw [hvalue, afterWhole, hread, hscale] at hsplit
      simpa using hsplit
  | cons x xs =>
      have hscale : -((x :: xs).length : Int) + s.exponent = s.scale := by
        simp only [List.length_cons] at hexponent ⊢
        omega
      have hstop : startsWithDigit ('.' :: (x :: xs ++ 'e' ::
          ((if s.exponent < 0 then [] else numberForm.plus) ++ (signed s.exponent ++ rest)))) =
            false := rfl
      have hsplit := number_wholePart hwhole hstop positive
      rw [afterWhole, fractionPart_exponent (by simp)
        (fun c hc => hdigits c (List.mem_cons_of_mem _ hc)), ← value_append,
        show Text.value ([d] ++ x :: xs) = s.digits from hvalue, hread, hscale] at hsplit
      simpa using hsplit

/-- The text of a decimal is read as a decimal of its value. -/
theorem number_scientific {s : Scientific} (hs : IsPlain s) (hlo : -1100 ≤ s.exponent)
    (hhi : s.exponent < 310) :
    ∃ t : Scientific, t.value = s.value ∧ ∀ positive rest, EndsValue rest →
      number positive (numberForm.scientific s ++ rest) =
        scaled positive t.digits t.scale rest := by
  rw [Form.scientific]
  by_cases hpoint : (decide (numberForm.least ≤ s.exponent) &&
      decide (s.exponent ≤ numberForm.greatest)) = true
  · rw [if_pos hpoint]
    exact number_positional hs
  · rw [if_neg hpoint]
    rcases hs with hn | rfl
    · exact ⟨s, rfl, fun positive _ hrest => number_exponential hn hlo hhi hrest positive⟩
    · exact absurd (by decide) hpoint

/-- The text of a decimal begins with a digit. -/
theorem scientific_head (s : Scientific) :
    ∃ c t, numberForm.scientific s = c :: t ∧ isDigit c = true := by
  obtain ⟨d, t, hdt⟩ := List.exists_cons_of_ne_nil (isWholePart_decimal s.digits).ne_nil
  have hd : isDigit d = true := (isWholePart_decimal s.digits).digits d (by simp [hdt])
  rw [Form.scientific, hdt]
  split
  · rw [Form.positional]
    split
    · exact ⟨'0', _, rfl, by decide⟩
    · exact ⟨d, _, rfl, hd⟩
  · exact ⟨d, _, rfl, hd⟩

/-! ## Doubles -/

/-- The field of the exponent as a number. -/
theorem toNat_unpackExponent (x : Float) :
    (@Float.Model.UnpackedFloat.unpackExponent .binary64 x.toBits.toBitVec).toNat =
      x.toBits.toNat / 2 ^ 52 % 2 ^ 11 := by
  rw [Float.Model.UnpackedFloat.unpackExponent, BitVec.toNat_cast, BitVec.extractLsb_toNat,
    Nat.shiftRight_eq_div_pow]
  rfl

/-- A finite number has parts. -/
theorem exists_ofFloat? {x : Float} (h : x.isFinite = true) :
    ∃ b, Binary.ofFloat? x = some b := by
  -- infinities and what is no number have all bits of the exponent set
  have hfield : x.toBits.toNat / 2 ^ 52 % 2 ^ 11 ≠ 2047 := by
    intro hall
    have hones : @Float.Model.UnpackedFloat.unpackExponent .binary64
        x.toModel.toBits.toBitVec = -1#11 :=
      BitVec.eq_of_toNat_eq ((toNat_unpackExponent x).trans hall)
    have hspecial : x.toModel.unpack =
        if @Float.Model.UnpackedFloat.unpackMantissa .binary64 x.toModel.toBits.toBitVec = 0#52
        then .infinity _ else .notANumber := if_pos hones
    rw [Float.isFinite, Float.Model.isFinite, hspecial] at h
    split at h <;> cases h
  rw [Binary.ofFloat?, Binary.ofBits?]
  simp only [if_neg hfield]
  split
  · exact ⟨_, rfl⟩
  · exact ⟨_, rfl⟩

theorem isPlain_shortest (b : Binary) : IsPlain b.shortest := by
  rcases b.shortest_cases with h | ⟨n, c, -, hm, hc, h⟩
  · exact .inr h
  · refine .inl fun hz => Binary.ne_zero_of_contains hm hc ?_
    exact (Scientific.strip_spec 17 ⟨c, _⟩).2.2 (h ▸ hz)

/-- The text of a finite number without its sign is read as a number. -/
theorem exists_number_binary {b : Binary} (hb : b.InRange) (positive : Bool) :
    ∃ x, ∀ rest, EndsValue rest →
      number positive (numberForm.scientific b.shortest ++ rest) = .ok (.float x, rest) := by
  obtain ⟨hlo, hhi⟩ := Binary.exponent_shortest_bounds hb
  obtain ⟨t, hvalue, hread⟩ := number_scientific (isPlain_shortest b) hlo hhi
  obtain ⟨x, hx⟩ := exists_nearest? (s := t) (by rw [hvalue]; exact Binary.value_shortest_lt hb)
  refine ⟨if positive then x else -x, fun rest hrest => ?_⟩
  rw [hread positive rest hrest, scaled, hx]

/-! ## Scalars -/

theorem scalar_digit {c : Char} (cs : List Char) (h : isDigit c = true) :
    scalar (c :: cs) = (number true (c :: cs)).map fun (n, rest) => (.num n, rest) := by
  have hne (d : Char) (hd : isDigit d = false) : c ≠ d := by
    rintro rfl
    rw [h] at hd
    exact absurd hd (by decide)
  rw [scalar, if_neg (hne 'n' (by decide)), if_neg (hne 't' (by decide)),
    if_neg (hne 'f' (by decide)), if_neg (hne '-' (by decide)), if_pos h]

theorem scalar_minus (cs : List Char) :
    scalar ('-' :: cs) = (number false cs).map fun (n, rest) => (.num n, rest) := rfl

/-- A whole number of 64 bits is read as it was written. -/
theorem scalar_int {n : Int} (hlo : -2 ^ 63 ≤ n) (hhi : n < 2 ^ 64) {rest : List Char}
    (hrest : EndsValue rest) :
    scalar (numberChars (.int n) ++ rest) = .ok (.num (.int n), rest) := by
  have hread (positive : Bool) := number_wholePart (isWholePart_decimal n.natAbs)
    hrest.startsWithDigit positive
  simp only [value_decimal, hrest.afterWhole] at hread
  rw [numberChars, signed]
  by_cases hneg : n < 0
  · have hn : -(n.natAbs : Int) = n := by omega
    have hsize : (decide (0 < n.natAbs) && decide (n.natAbs ≤ 2 ^ 63)) = true := by
      rw [Bool.and_eq_true, decide_eq_true_eq, decide_eq_true_eq]
      omega
    rw [if_pos hneg, List.cons_append, scalar_minus, hread false]
    simp only [Bool.false_and, Bool.not_false, Bool.true_and, hsize, if_true, hn]
    rfl
  · have hn : (n.natAbs : Int) = n := by omega
    have hsize : decide (n.natAbs < 2 ^ 64) = true := decide_eq_true (by omega)
    obtain ⟨d, t, hdt⟩ := List.exists_cons_of_ne_nil (isWholePart_decimal n.natAbs).ne_nil
    have hd := (isWholePart_decimal n.natAbs).digits d (by simp [hdt])
    have htrue := hread true
    rw [hdt] at htrue
    rw [if_neg hneg, hdt, List.cons_append, scalar_digit _ hd, ← List.cons_append, htrue]
    simp only [Bool.true_and, hsize, if_true, hn]
    rfl

/-- A number of double precision is read as some scalar. -/
theorem exists_scalar_float (x : Float) : ∃ v, ∀ rest, EndsValue rest →
    scalar (numberChars (.float x) ++ rest) = .ok (v, rest) := by
  rw [numberChars]
  by_cases hfinite : x.isFinite = true
  · obtain ⟨b, hb⟩ := exists_ofFloat? hfinite
    obtain ⟨y, hy⟩ := exists_number_binary (Binary.inRange_of_ofBits? hb) (!b.negative)
    refine ⟨.num (.float y), fun rest hrest => ?_⟩
    rw [if_pos hfinite, Form.chars, hb]
    simp only [Form.binary]
    cases hsign : b.negative with
    | true =>
        rw [hsign] at hy
        rw [if_pos rfl, List.singleton_append, List.cons_append, scalar_minus,
          show false = !true from rfl, hy rest hrest]
        rfl
    | false =>
        rw [hsign] at hy
        obtain ⟨c, t, hct, hc⟩ := scientific_head b.shortest
        have hread := hy rest hrest
        rw [if_neg (by decide), List.nil_append]
        rw [hct, List.cons_append] at hread ⊢
        rw [scalar_digit _ hc, show true = !false from rfl, hread]
        rfl
  · exact ⟨.null, fun rest _ => by rw [if_neg hfinite]; rfl⟩

end Json

end JobQueue
