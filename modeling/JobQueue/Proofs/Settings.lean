import JobQueue.Config
import JobQueue.Proofs.Numbers
import Mathlib.Data.List.TakeWhile

/-!
# JobQueue.Proofs.Settings

The settings of a pool from named texts: which texts are taken, and what for.

- A text names a number if it is a run of digits with a plus or none, between blanks, and the
  number fits 64 bits (`Numeral`). Just those texts are read, as their numbers
  (`wholeNumber_eq_ok_iff`).
- Settings are taken up exactly if every number among them is missing or named, and is not zero
  where it must not be (`Setting.Usable`). Else the first that is not is told
  (`fromLookup_cases`).
- Each setting follows from the text of its own name (`settings_follow`).
-/

namespace JobQueue

namespace Text

/-! ## Blanks -/

theorem trimLeft_blanks {blanks : List Char} (h : ∀ c ∈ blanks, isBlank c) (cs : List Char) :
    trimLeft (blanks ++ cs) = trimLeft cs := by
  rw [trimLeft, List.dropWhile_append_of_pos h, trimLeft]

theorem trimLeft_of_not_isBlank {cs : List Char} (hne : cs ≠ [])
    (h : ∀ c ∈ cs, isBlank c = false) (rest : List Char) :
    trimLeft (cs ++ rest) = cs ++ rest := by
  cases cs with
  | nil => exact absurd rfl hne
  | cons c cs => exact Rfc3339.trimLeft_cons _ (h c List.mem_cons_self)

theorem exists_trimLeft (cs : List Char) :
    ∃ blanks, (∀ c ∈ blanks, isBlank c) ∧ cs = blanks ++ trimLeft cs :=
  ⟨cs.takeWhile isBlank, fun _ hc => List.mem_takeWhile_imp hc,
    List.takeWhile_append_dropWhile.symm⟩

/-- Only blanks are dropped at the ends. -/
theorem exists_trim (cs : List Char) : ∃ before behind,
    (∀ c ∈ before ++ behind, isBlank c) ∧ cs = before ++ trim cs ++ behind := by
  obtain ⟨before, hbefore, hfront⟩ := exists_trimLeft cs
  obtain ⟨behind, hbehind, hback⟩ := exists_trimLeft (trimLeft cs).reverse
  refine ⟨before, behind.reverse, fun c hc => ?_, ?_⟩
  · rcases List.mem_append.mp hc with hc | hc
    · exact hbefore c hc
    · exact hbehind c (List.mem_reverse.mp hc)
  · have hmiddle : trim cs ++ behind.reverse = trimLeft cs := by
      rw [trim, ← List.reverse_append, ← hback, List.reverse_reverse]
    rw [List.append_assoc, hmiddle, ← hfront]

/-- Blanks around a text without any are dropped. -/
theorem trim_eq {before cs behind : List Char} (hblank : ∀ c ∈ before ++ behind, isBlank c)
    (hne : cs ≠ []) (hsolid : ∀ c ∈ cs, isBlank c = false) :
    trim (before ++ cs ++ behind) = cs := by
  have hbefore : ∀ c ∈ before, isBlank c := fun c hc => hblank c (List.mem_append_left _ hc)
  have hbehind : ∀ c ∈ behind.reverse, isBlank c := fun c hc =>
    hblank c (List.mem_append_right _ (List.mem_reverse.mp hc))
  have hback := trimLeft_of_not_isBlank (List.reverse_ne_nil_iff.mpr hne)
    (fun c hc => hsolid c (List.mem_reverse.mp hc)) []
  rw [List.append_nil] at hback
  rw [trim, List.append_assoc, trimLeft_blanks hbefore, trimLeft_of_not_isBlank hne hsolid,
    List.reverse_append, trimLeft_blanks hbehind, hback, List.reverse_reverse]

end Text

open Text

/-! ## Numbers -/

/-- A run of digits, at least one, with a plus or none before it. -/
inductive Digits : List Char → Nat → Prop where
  | plain {cs : List Char} (hne : cs ≠ []) (hdigits : ∀ c ∈ cs, isDigit c) : Digits cs (value cs)
  | plus {cs : List Char} (hne : cs ≠ []) (hdigits : ∀ c ∈ cs, isDigit c) :
      Digits ('+' :: cs) (value cs)

/-- A text names a number of 64 bits: its digits stand between blanks. -/
def Numeral (s : String) (n : Nat) : Prop :=
  ∃ before cs behind, s.toList = before ++ cs ++ behind ∧ (∀ c ∈ before ++ behind, isBlank c) ∧
    Digits cs n ∧ n < 2 ^ 64

/-- Digits are read as long as their number fits. -/
theorem digitsFrom_eq_ok_iff {cs : List Char} {n m : Nat} (hn : n < 2 ^ 64) :
    digitsFrom n cs = .ok m ↔
      (∀ c ∈ cs, isDigit c) ∧ n * 10 ^ cs.length + value cs = m ∧ m < 2 ^ 64 := by
  induction cs generalizing n with
  | nil =>
      simp [digitsFrom, value]
      omega
  | cons c cs ih =>
      have hvalue : n * 10 ^ (c :: cs).length + value (c :: cs) =
          (10 * n + digitValue c) * 10 ^ cs.length + value cs := by
        rw [← foldl_digits, ← foldl_digits, List.foldl_cons]
      have hgrows : 10 * n + digitValue c ≤
          (10 * n + digitValue c) * 10 ^ cs.length + value cs :=
        (Nat.le_mul_of_pos_right _ (Nat.pow_pos (by decide))).trans (Nat.le_add_right _ _)
      rw [digitsFrom, hvalue, List.forall_mem_cons]
      cases hc : isDigit c with
      | false => simp
      | true =>
          by_cases hfits : 2 ^ 64 ≤ 10 * n + digitValue c
          · simp [hfits]
            omega
          · simp [hfits, ih (Nat.lt_of_not_le hfits)]

theorem Digits.ne_nil {cs : List Char} {n : Nat} (h : Digits cs n) : cs ≠ [] := by
  cases h with
  | plain hne _ => exact hne
  | plus _ _ => exact List.cons_ne_nil _ _

theorem Digits.not_isBlank {cs : List Char} {n : Nat} (h : Digits cs n) :
    ∀ c ∈ cs, isBlank c = false := by
  cases h with
  | plain _ hdigits => exact fun c hc => Rfc3339.isBlank_of_isDigit (hdigits c hc)
  | plus _ hdigits =>
      rw [List.forall_mem_cons]
      exact ⟨by decide, fun c hc => Rfc3339.isBlank_of_isDigit (hdigits c hc)⟩

theorem digitsFrom_zero_eq_ok_iff {cs : List Char} {n : Nat} :
    digitsFrom 0 cs = .ok n ↔ (∀ c ∈ cs, isDigit c) ∧ value cs = n ∧ n < 2 ^ 64 := by
  rw [digitsFrom_eq_ok_iff (by decide), Nat.zero_mul, Nat.zero_add]

theorem digits_cons_iff {c : Char} {cs : List Char} {n : Nat} (hc : c ≠ '+') :
    Digits (c :: cs) n ↔ (∀ d ∈ c :: cs, isDigit d) ∧ value (c :: cs) = n := by
  constructor
  · intro h
    cases h with
    | plain _ hdigits => exact ⟨hdigits, rfl⟩
    | plus _ _ => exact absurd rfl hc
  · rintro ⟨hdigits, rfl⟩
    exact .plain (List.cons_ne_nil _ _) hdigits

theorem digits_plus_iff {cs : List Char} {n : Nat} :
    Digits ('+' :: cs) n ↔ cs ≠ [] ∧ (∀ d ∈ cs, isDigit d) ∧ value cs = n := by
  constructor
  · intro h
    cases h with
    | plain _ hdigits => exact absurd (hdigits '+' List.mem_cons_self) (by decide)
    | plus hne hdigits => exact ⟨hne, hdigits, rfl⟩
  · rintro ⟨hne, hdigits, rfl⟩
    exact .plus hne hdigits

/-- Without its blanks, a text is read if it is a run of digits. -/
theorem unsigned_eq_ok_iff {cs : List Char} {n : Nat} :
    unsigned cs = .ok n ↔ Digits cs n ∧ n < 2 ^ 64 := by
  unfold unsigned
  split
  · exact ⟨nofun, fun h => absurd rfl h.1.ne_nil⟩
  · exact ⟨nofun, fun h => absurd rfl (digits_plus_iff.mp h.1).1⟩
  · next cs hne =>
      rw [digitsFrom_zero_eq_ok_iff, digits_plus_iff, ← and_assoc, and_iff_right hne]
  · next hnil _ hplus =>
      cases cs with
      | nil => exact absurd rfl hnil
      | cons c cs =>
          rw [digitsFrom_zero_eq_ok_iff, digits_cons_iff fun hc => hplus cs (hc ▸ rfl), and_assoc]

/-- The texts that name a number are read as it, and no others are. -/
theorem wholeNumber_eq_ok_iff {s : String} {n : UInt64} :
    wholeNumber s = .ok n ↔ Numeral s n.toNat := by
  constructor
  · intro h
    obtain ⟨m, hm, hn⟩ : ∃ m, unsigned (trim s.toList) = .ok m ∧ UInt64.ofNat m = n := by
      rw [wholeNumber] at h
      cases hread : unsigned (trim s.toList) with
      | error f => rw [hread] at h; cases h
      | ok m => rw [hread] at h; exact ⟨m, rfl, Except.ok.inj h⟩
    obtain ⟨hdigits, hlt⟩ := unsigned_eq_ok_iff.mp hm
    obtain ⟨before, behind, hblank, hs⟩ := exists_trim s.toList
    have htoNat : n.toNat = m := by rw [← hn, UInt64.toNat_ofNat_of_lt' hlt]
    rw [htoNat]
    exact ⟨before, _, behind, hs, hblank, hdigits, hlt⟩
  · rintro ⟨before, cs, behind, hs, hblank, hdigits, hlt⟩
    rw [wholeNumber, hs, trim_eq hblank hdigits.ne_nil hdigits.not_isBlank,
      unsigned_eq_ok_iff.mpr ⟨hdigits, hlt⟩]
    exact congrArg Except.ok UInt64.ofNat_toNat

/-- A text names one number. -/
theorem Numeral.unique {s : String} {n m : Nat} (hn : Numeral s n) (hm : Numeral s m) : n = m := by
  have hread {k : Nat} (hk : Numeral s k) : wholeNumber s = .ok (.ofNat k) ∧ k < 2 ^ 64 := by
    obtain ⟨-, -, -, -, -, -, hlt⟩ := id hk
    exact ⟨wholeNumber_eq_ok_iff.mpr (by rwa [UInt64.toNat_ofNat_of_lt' hlt]), hlt⟩
  obtain ⟨hnread, hnlt⟩ := hread hn
  obtain ⟨hmread, hmlt⟩ := hread hm
  have heq := congrArg UInt64.toNat (Except.ok.inj (hnread.symm.trans hmread))
  rwa [UInt64.toNat_ofNat_of_lt' hnlt, UInt64.toNat_ofNat_of_lt' hmlt] at heq

/-! ## Single settings -/

/-- A number among the settings: its name, and whether it may be zero. -/
structure Setting where
  key : String
  mayBeZero : Bool

/-- A setting is missing, or its text names a number that it may have. -/
def Setting.Usable (v : Setting) (lookup : String → Option String) : Prop :=
  ∀ raw, lookup v.key = some raw → ∃ n, Numeral raw n ∧ (v.mayBeZero ∨ n ≠ 0)

/-- What reading a setting comes to: a value that fits its text, or an error of its name. -/
inductive Setting.Reading (v : Setting) (lookup : String → Option String) {α : Type}
    (Fits : Option String → α → Prop) : Except ConfigError α → Prop where
  | taken {a : α} (usable : v.Usable lookup) (fits : Fits (lookup v.key) a) :
      v.Reading lookup Fits (.ok a)
  | refused (message : String) (unusable : ¬ v.Usable lookup) :
      v.Reading lookup Fits (.error (.invalidValue v.key message))

/-- The length of time is that number of milliseconds. -/
def Millis (raw : String) (d : Duration) : Prop :=
  ∃ n, Numeral raw n ∧ d.secs = n / 1000 ∧ d.subsec = n % 1000 * 10 ^ 6

/-- The length of time is that number of seconds. -/
def Seconds (raw : String) (d : Duration) : Prop :=
  ∃ n, Numeral raw n ∧ d.secs = n ∧ d.subsec = 0

/-- The length of time is that of a text, or a default without a text. -/
inductive OrDefault (Unit : String → Duration → Prop) (default : Duration) :
    Option String → Duration → Prop where
  | unset : OrDefault Unit default none default
  | set {raw : String} {d : Duration} (h : Unit raw d) : OrDefault Unit default (some raw) d

theorem millis_ofMillis {raw : String} {n : UInt64} (h : Numeral raw n.toNat) :
    Millis raw (.ofMillis n) := by
  refine ⟨_, h, ?_, ?_⟩
  · simp only [Duration.secs, Duration.ofMillis]
    omega
  · simp only [Duration.subsec, Duration.ofMillis]
    omega

theorem seconds_ofSecs {raw : String} {n : UInt64} (h : Numeral raw n.toNat) :
    Seconds raw (.ofSecs n) := by
  refine ⟨_, h, ?_, ?_⟩
  · simp only [Duration.secs, Duration.ofSecs]
    omega
  · simp only [Duration.subsec, Duration.ofSecs]
    omega

/-- A length of time is told by its seconds and what is beyond them. -/
theorem Duration.eq_of_parts {d d' : Duration} (hsecs : d.secs = d'.secs)
    (hsubsec : d.subsec = d'.subsec) : d = d' := by
  obtain ⟨n, hn⟩ := d
  obtain ⟨n', hn'⟩ := d'
  simp only [secs, subsec] at hsecs hsubsec
  simp only [mk.injEq]
  omega

/-- A length of time that is told by the number of a text is the only one. -/
theorem Numeral.duration_unique {raw : String} {d d' : Duration} {secs subsec : Nat → Nat}
    (h : ∃ n, Numeral raw n ∧ d.secs = secs n ∧ d.subsec = subsec n)
    (h' : ∃ n, Numeral raw n ∧ d'.secs = secs n ∧ d'.subsec = subsec n) : d = d' := by
  obtain ⟨n, hn, hsecs, hsubsec⟩ := h
  obtain ⟨n', hn', hsecs', hsubsec'⟩ := h'
  obtain rfl := hn.unique hn'
  exact Duration.eq_of_parts (hsecs.trans hsecs'.symm) (hsubsec.trans hsubsec'.symm)

theorem Millis.unique {raw : String} {d d' : Duration} (h : Millis raw d) (h' : Millis raw d') :
    d = d' := Numeral.duration_unique h h'

theorem Seconds.unique {raw : String} {d d' : Duration} (h : Seconds raw d)
    (h' : Seconds raw d') : d = d' := Numeral.duration_unique h h'

theorem OrDefault.unique {Unit : String → Duration → Prop} {default : Duration}
    {text text' : Option String} {d d' : Duration} (h : OrDefault Unit default text d)
    (h' : OrDefault Unit default text' d')
    (hunit : ∀ {raw d d'}, Unit raw d → Unit raw d' → d = d') (heq : text = text') : d = d' := by
  subst heq
  cases h with
  | unset =>
      cases h'
      rfl
  | set hd =>
      cases h' with
      | set hd' => exact hunit hd hd'

theorem Millis.rel_unique {text text' : Option String} {d d' : Option Duration}
    (h : Option.Rel Millis text d) (h' : Option.Rel Millis text' d') (heq : text = text') :
    d = d' := by
  subst heq
  cases h with
  | none =>
      cases h'
      rfl
  | some hd =>
      cases h' with
      | some hd' => rw [hd.unique hd']

theorem Setting.Usable.mayBeZero {key : String} {zero : Bool} {lookup : String → Option String}
    (h : (Setting.mk key zero).Usable lookup) : (Setting.mk key true).Usable lookup := by
  intro raw hraw
  obtain ⟨n, hn, -⟩ := h raw hraw
  exact ⟨n, hn, .inl rfl⟩

namespace Config

/-- A number that may be zero is taken if it is named. -/
theorem reading_number? (lookup : String → Option String) (key : String) :
    (Setting.mk key true).Reading lookup (Option.Rel fun raw n => Numeral raw n.toNat)
      (number? lookup key) := by
  rw [number?]
  cases hlookup : lookup key with
  | none =>
      refine .taken (fun raw hraw => ?_) (hlookup ▸ .none)
      rw [hlookup] at hraw
      cases hraw
  | some raw =>
      dsimp only
      cases hread : wholeNumber raw with
      | ok n =>
          have hnumeral := wholeNumber_eq_ok_iff.mp hread
          refine .taken (fun raw' hraw => ⟨n.toNat, ?_, .inl rfl⟩) (hlookup ▸ .some hnumeral)
          rwa [← Option.some.inj (hlookup.symm.trans hraw)]
      | error f =>
          refine .refused _ fun husable => ?_
          obtain ⟨n, hn, -⟩ := husable raw hlookup
          obtain ⟨-, -, -, -, -, -, hlt⟩ := id hn
          rw [← UInt64.toNat_ofNat_of_lt' hlt, ← wholeNumber_eq_ok_iff, hread] at hn
          cases hn

/-- A length of time that must not be zero is taken if its number is named and is not zero. -/
theorem reading_interval (lookup : String → Option String) (key : String)
    {unit : UInt64 → Duration} {Unit : String → Duration → Prop}
    (hunit : ∀ raw n, Numeral raw n.toNat → Unit raw (unit n))
    (hzero : ∀ n, (unit n).isZero ↔ n = 0) (default : Duration) :
    (Setting.mk key false).Reading lookup (OrDefault Unit default)
      (interval lookup key unit default) := by
  have h := reading_number? lookup key
  rw [interval]
  generalize number? lookup key = x at h
  cases h with
  | refused message unusable => exact .refused message fun husable => unusable husable.mayBeZero
  | @taken n usable fits =>
      rw [ok_bind]
      dsimp only at fits
      generalize htext : lookup key = text at fits
      cases fits with
      | none =>
          refine .taken (fun raw hraw => ?_) (htext ▸ .unset)
          rw [htext] at hraw
          cases hraw
      | @some raw n hnumeral =>
          dsimp only [nonZero]
          by_cases hn : n = 0
          · rw [if_pos ((hzero n).mpr hn)]
            refine .refused _ fun husable => ?_
            obtain ⟨m, hm, hpos | hpos⟩ := husable raw htext
            · cases hpos
            · rw [hn] at hnumeral
              exact hpos (hm.unique hnumeral)
          · rw [if_neg (mt (hzero n).mp hn)]
            refine .taken (fun raw' hraw => ?_) (htext ▸ .set (hunit raw n hnumeral))
            obtain rfl := Option.some.inj (htext.symm.trans hraw)
            exact ⟨n.toNat, hnumeral, .inr fun hz => hn (UInt64.toNat_inj.mp hz)⟩

/-! ## All settings -/

/-- The numbers among the settings, in the order in which they are read. -/
def settings : List Setting :=
  [⟨reaperKey, false⟩, ⟨graceKey, true⟩, ⟨retentionKey, true⟩, ⟨cleanupKey, false⟩]

/-- Settings are those of named texts, and the usual ones where there is no text. -/
structure Follows (c : Config) (lookup : String → Option String) : Prop where
  databasePath : c.databasePath = (lookup pathKey).getD ({} : Config).databasePath
  reaperInterval : OrDefault Millis ({} : Config).reaperInterval (lookup reaperKey)
    c.reaperInterval
  shutdownGrace : Option.Rel Millis (lookup graceKey) c.shutdownGrace
  retention : OrDefault Seconds ({} : Config).retention (lookup retentionKey) c.retention
  cleanupInterval : OrDefault Seconds ({} : Config).cleanupInterval (lookup cleanupKey)
    c.cleanupInterval

/-- Settings from different texts agree where the texts of a name do. -/
structure Shares (c c' : Config) (lookup lookup' : String → Option String) : Prop where
  databasePath : lookup pathKey = lookup' pathKey → c.databasePath = c'.databasePath
  reaperInterval : lookup reaperKey = lookup' reaperKey → c.reaperInterval = c'.reaperInterval
  shutdownGrace : lookup graceKey = lookup' graceKey → c.shutdownGrace = c'.shutdownGrace
  retention : lookup retentionKey = lookup' retentionKey → c.retention = c'.retention
  cleanupInterval : lookup cleanupKey = lookup' cleanupKey → c.cleanupInterval = c'.cleanupInterval

/-- A setting is the first that is not usable. -/
def FirstUnusable (v : Setting) (lookup : String → Option String) : Prop :=
  ∃ pre post, settings = pre ++ v :: post ∧ (∀ u ∈ pre, u.Usable lookup) ∧ ¬ v.Usable lookup

/-- What settings follow from settles each of them on its own. -/
theorem Follows.shares {c c' : Config} {lookup lookup' : String → Option String}
    (h : c.Follows lookup) (h' : c'.Follows lookup') : c.Shares c' lookup lookup' where
  databasePath heq := by rw [h.databasePath, h'.databasePath, heq]
  reaperInterval := h.reaperInterval.unique h'.reaperInterval Millis.unique
  shutdownGrace := Millis.rel_unique h.shutdownGrace h'.shutdownGrace
  retention := h.retention.unique h'.retention Seconds.unique
  cleanupInterval := h.cleanupInterval.unique h'.cleanupInterval Seconds.unique

theorem isZero_ofMillis {n : UInt64} : (Duration.ofMillis n).isZero ↔ n = 0 := by
  simp [Duration.isZero, Duration.ofMillis, ← UInt64.toNat_inj]

theorem isZero_ofSecs {n : UInt64} : (Duration.ofSecs n).isZero ↔ n = 0 := by
  simp [Duration.isZero, Duration.ofSecs, ← UInt64.toNat_inj]

/-- Settings are taken up, or the first that is not usable is told. -/
theorem fromLookup_cases (lookup : String → Option String) :
    (∃ c, fromLookup lookup = .ok c ∧ (∀ v ∈ settings, v.Usable lookup) ∧ c.Follows lookup) ∨
      ∃ v message, fromLookup lookup = .error (.invalidValue v.key message) ∧
        FirstUnusable v lookup := by
  have hreaper := reading_interval lookup reaperKey (fun _ _ => millis_ofMillis)
    (fun _ => isZero_ofMillis) ({} : Config).reaperInterval
  have hgrace := reading_number? lookup graceKey
  have hretention := reading_number? lookup retentionKey
  have hcleanup := reading_interval lookup cleanupKey (fun _ _ => seconds_ofSecs)
    (fun _ => isZero_ofSecs) ({} : Config).cleanupInterval
  rw [fromLookup]
  generalize interval lookup reaperKey .ofMillis ({} : Config).reaperInterval = x₁ at hreaper ⊢
  generalize number? lookup graceKey = x₂ at hgrace ⊢
  generalize number? lookup retentionKey = x₃ at hretention ⊢
  generalize interval lookup cleanupKey .ofSecs ({} : Config).cleanupInterval = x₄ at hcleanup ⊢
  cases hreaper with
  | refused message hbad =>
      exact .inr ⟨_, message, rfl, [], _, rfl, nofun, hbad⟩
  | taken hreaper reaper =>
  cases hgrace with
  | refused message hbad =>
      exact .inr ⟨_, message, rfl, [_], _, rfl, by simpa using hreaper, hbad⟩
  | taken hgrace grace =>
  cases hretention with
  | refused message hbad =>
      exact .inr ⟨_, message, rfl, [_, _], _, rfl, by simpa using ⟨hreaper, hgrace⟩, hbad⟩
  | taken hretention retention =>
  cases hcleanup with
  | refused message hbad =>
      exact .inr ⟨_, message, rfl, [_, _, _], _, rfl,
        by simpa using ⟨hreaper, hgrace, hretention⟩, hbad⟩
  | taken hcleanup cleanup =>
  refine .inl ⟨_, rfl, by simpa [settings] using ⟨hreaper, hgrace, hretention, hcleanup⟩, rfl,
    reaper, ?_, ?_, cleanup⟩
  · generalize lookup graceKey = text at grace
    cases grace with
    | none => exact .none
    | some hn => exact .some (millis_ofMillis hn)
  · generalize lookup retentionKey = text at retention
    cases retention with
    | none => exact .unset
    | some hn => exact .set (seconds_ofSecs hn)

/-- Settings are taken up exactly if every number among them is usable, and each then follows
from the text of its own name and from no other. Else the first that is not usable is told. -/
theorem settings_follow (lookup : String → Option String) :
    ((∃ c, fromLookup lookup = .ok c) ↔ ∀ v ∈ settings, v.Usable lookup) ∧
    (∀ c, fromLookup lookup = .ok c → c.Follows lookup ∧
      ∀ lookup' c', fromLookup lookup' = .ok c' → c.Shares c' lookup lookup') ∧
    ∀ e, fromLookup lookup = .error e →
      ∃ v message, e = .invalidValue v.key message ∧ FirstUnusable v lookup := by
  have hfollows (lookup : String → Option String) (c : Config) (hc : fromLookup lookup = .ok c) :
      c.Follows lookup := by
    rcases fromLookup_cases lookup with ⟨c', hc', -, h⟩ | ⟨v, message, he, -⟩
    · rwa [Except.ok.inj (hc.symm.trans hc')]
    · cases hc.symm.trans he
  refine ⟨?_, fun c hc => ⟨hfollows _ c hc, fun lookup' c' hc' =>
    (hfollows _ c hc).shares (hfollows _ c' hc')⟩, fun e he => ?_⟩
  · rcases fromLookup_cases lookup with ⟨c, hc, husable, -⟩ | ⟨v, message, he, hfirst⟩
    · exact ⟨fun _ => husable, fun _ => ⟨c, hc⟩⟩
    · obtain ⟨pre, post, hsettings, -, hbad⟩ := hfirst
      refine ⟨fun ⟨c, hc⟩ => ?_, fun husable => absurd (husable v ?_) hbad⟩
      · cases hc.symm.trans he
      · rw [hsettings]
        exact List.mem_append_right _ List.mem_cons_self
  · rcases fromLookup_cases lookup with ⟨c, hc, -⟩ | ⟨v, message, he', hfirst⟩
    · cases he.symm.trans hc
    · exact ⟨v, message, Except.error.inj (he.symm.trans he'), hfirst⟩

/-- A number with blanks, a plus and a leading zero. -/
def spaced (key : String) : Option String :=
  if key = reaperKey then some " +0250 " else none

/-- Two texts that name no number. -/
def crossed (key : String) : Option String :=
  if key = graceKey then some "2 3" else if key = cleanupKey then some "-1" else none

theorem settings_follow_spaced :
    (∃ c, fromLookup spaced = .ok c ∧ c.reaperInterval = .ofMillis 250 ∧ c.Follows spaced) ∧
      ∃ v, v.key = graceKey ∧ FirstUnusable v crossed := by
  have hspaced : fromLookup spaced = .ok { reaperInterval := .ofMillis 250 } := by decide +kernel
  have hcrossed : fromLookup crossed =
      .error (.invalidValue graceKey "\"2 3\": invalid digit found in string") := by
    decide +kernel
  obtain ⟨v, message, he, hfirst⟩ := (settings_follow crossed).2.2 _ hcrossed
  exact ⟨⟨_, hspaced, rfl, ((settings_follow spaced).2.1 _ hspaced).1⟩,
    v, (ConfigError.invalidValue.inj he).1.symm, hfirst⟩

end Config

end JobQueue
