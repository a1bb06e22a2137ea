import JobQueue.Proofs.Numbers

/-!
# JobQueue.Proofs.Documents

A document whose whole numbers have 64 bits can be read from its text exactly if it is not
nested too deeply (`exists_parse_iff`), and is read back as it was if all its numbers are
whole (`parse_render`).

- Scalars are read from their texts, arrays and objects from their parts (`isReadBy_arr`,
  `isReadBy_obj`), so a document is read as some document if its depth is allowed, and as
  itself if its text tells it exactly (`exists_isReadBy`).
- Otherwise the reader stops at the first part that is too deep (`value_deep`).
-/

namespace JobQueue

/-- A number that documents have. -/
def Number.Fits : Number → Prop
  | .int n => -2 ^ 63 ≤ n ∧ n < 2 ^ 64
  | .float _ => True

namespace Json

open Text

mutual

/-- All whole numbers in a document have 64 bits. -/
def Fits : Json → Prop
  | .num n => n.Fits
  | .arr items => FitsItems items
  | .obj members => FitsMembers members
  | _ => True

/-- All whole numbers in the items of an array have 64 bits. -/
def FitsItems : List Json → Prop
  | [] => True
  | v :: rest => v.Fits ∧ FitsItems rest

/-- All whole numbers in the members of an object have 64 bits. -/
def FitsMembers : List (String × Json) → Prop
  | [] => True
  | (_, v) :: rest => v.Fits ∧ FitsMembers rest

end

mutual

/-- A document that its text tells exactly: all numbers are whole, and the members of objects
stand in the order of their keys, each key once. -/
def IsExact : Json → Prop
  | .num (.float _) => False
  | .arr items => IsExactItems items
  | .obj members => (members.Pairwise fun m n => m.1 < n.1) ∧ IsExactMembers members
  | _ => True

/-- The items of an array that its text tells exactly. -/
def IsExactItems : List Json → Prop
  | [] => True
  | v :: rest => v.IsExact ∧ IsExactItems rest

/-- The members of an object that its text tells exactly. -/
def IsExactMembers : List (String × Json) → Prop
  | [] => True
  | (_, v) :: rest => v.IsExact ∧ IsExactMembers rest

end

/-! ## Scalars -/

/-- A text that a scalar can begin with. -/
def IsScalarHead (p : List Char) : Prop :=
  ∃ c t, p = c :: t ∧ isSpace c = false ∧ c ≠ ']' ∧ c ≠ '[' ∧ c ≠ '\x7b'

theorem IsScalarHead.isItemHead {p : List Char} (h : IsScalarHead p) : IsItemHead p := by
  obtain ⟨c, t, rfl, hspace, hne, -, -⟩ := h
  exact ⟨c, t, rfl, hspace, hne⟩

/-- A scalar is read as a value. -/
theorem value_scalar {p : List Char} (h : IsScalarHead p) (d : Nat) (rest : List Char) :
    value d (p ++ rest) = scalar (p ++ rest) := by
  obtain ⟨c, t, rfl, hspace, -, harr, hobj⟩ := h
  rw [List.cons_append, value, skipSpace_cons _ hspace]
  simp only [harr, hobj, if_false]

theorem isScalarHead_digit {c : Char} (t : List Char) (h : isDigit c = true) :
    IsScalarHead (c :: t) := by
  have hne (x : Char) (hx : isDigit x = false) : c ≠ x := by
    rintro rfl
    rw [h] at hx
    exact absurd hx (by decide)
  refine ⟨c, t, rfl, ?_, hne _ (by decide), hne _ (by decide), hne _ (by decide)⟩
  simp [isSpace, hne ' ' (by decide), hne '\n' (by decide), hne '\t' (by decide),
    hne '\r' (by decide)]

theorem isScalarHead_minus (t : List Char) : IsScalarHead ('-' :: t) := ⟨'-', t, rfl, by decide⟩

theorem isScalarHead_decimal (n : Nat) : IsScalarHead (decimal n) := by
  obtain ⟨c, t, hct⟩ := List.exists_cons_of_ne_nil (isWholePart_decimal n).ne_nil
  rw [hct]
  exact isScalarHead_digit t ((isWholePart_decimal n).digits c (by simp [hct]))

theorem isScalarHead_numberChars (n : Number) : IsScalarHead (numberChars n) := by
  cases n with
  | int n =>
      rw [numberChars, signed]
      split
      · exact isScalarHead_minus _
      · exact isScalarHead_decimal _
  | float x =>
      rw [numberChars]
      split
      · next hfinite =>
          obtain ⟨b, hb⟩ := exists_ofFloat? hfinite
          obtain ⟨c, t, hct, hc⟩ := scientific_head b.shortest
          rw [Decimal.Form.chars, hb]
          simp only [Decimal.Form.binary, hct]
          split
          · exact isScalarHead_minus _
          · exact isScalarHead_digit t hc
      · exact ⟨'n', _, rfl, by decide⟩

/-- What a scalar is read as. -/
theorem isReadBy_scalar {p : List Char} {w : Json} (h : IsScalarHead p) (d : Nat)
    (hread : ∀ rest, EndsValue rest → scalar (p ++ rest) = .ok (w, rest)) :
    IsReadBy (value d) p w where
  head := h.isItemHead
  read rest hrest := by rw [value_scalar h, hread rest hrest]

theorem isReadBy_null (d : Nat) : IsReadBy (value d) (chars .null) .null :=
  isReadBy_scalar ⟨'n', _, rfl, by decide⟩ d fun _ _ => rfl

theorem isReadBy_bool (d : Nat) (b : Bool) : IsReadBy (value d) (chars (.bool b)) (.bool b) := by
  cases b
  · exact isReadBy_scalar ⟨'f', _, rfl, by decide⟩ d fun _ _ => rfl
  · exact isReadBy_scalar ⟨'t', _, rfl, by decide⟩ d fun _ _ => rfl

theorem scalar_quotedChars (s : String) (rest : List Char) :
    scalar (quotedChars s ++ rest) = .ok (.str s, rest) := by
  have hdigit : isDigit '"' = false := by decide
  rw [quotedChars, List.append_assoc, List.cons_append, scalar]
  simp [hdigit, string_escaped, Except.map]

theorem isReadBy_str (d : Nat) (s : String) : IsReadBy (value d) (chars (.str s)) (.str s) := by
  rw [chars_str]
  exact isReadBy_scalar ⟨'"', _, rfl, by decide⟩ d fun rest _ => scalar_quotedChars s rest

/-- A number is read as some value, and as itself if it is whole. -/
theorem exists_isReadBy_num (d : Nat) {n : Number} (hn : n.Fits) :
    ∃ w, IsReadBy (value d) (chars (.num n)) w ∧ (IsExact (.num n) → w = .num n) := by
  have hchars : chars (.num n) = numberChars n := List.append_nil _
  have hscalar : ∃ w, (∀ rest, EndsValue rest → scalar (numberChars n ++ rest) = .ok (w, rest)) ∧
      (IsExact (.num n) → w = .num n) := by
    cases n with
    | int n => exact ⟨_, fun rest hrest => scalar_int hn.1 hn.2 hrest, fun _ => rfl⟩
    | float x =>
        obtain ⟨w, hw⟩ := exists_scalar_float x
        exact ⟨w, hw, fun hexact => hexact.elim⟩
  obtain ⟨w, hw, hexact⟩ := hscalar
  rw [hchars]
  exact ⟨w, isReadBy_scalar (isScalarHead_numberChars n) d hw, hexact⟩

/-! ## Arrays -/

/-- The text of an array begins with its bracket, and that of an object with its brace. -/
theorem chars_bracket (items : List Json) (ms : List (String × Json)) :
    (∃ t, chars (.arr items) = '[' :: t) ∧ ∃ t, chars (.obj ms) = '\x7b' :: t := by
  constructor
  · cases items with
    | nil => exact ⟨_, rfl⟩
    | cons v items => exact ⟨_, chars_arr v items⟩
  · cases ms with
    | nil => exact ⟨_, rfl⟩
    | cons m ms => exact ⟨_, chars_obj m ms⟩

theorem isItemHead_chars (v : Json) : IsItemHead v.chars := by
  cases v with
  | null => exact (isReadBy_null 0).head
  | bool b => exact (isReadBy_bool 0 b).head
  | num n =>
      rw [chars, emit, List.append_nil]
      exact (isScalarHead_numberChars n).isItemHead
  | str s => exact (isReadBy_str 0 s).head
  | arr items =>
      obtain ⟨⟨t, ht⟩, -⟩ := chars_bracket items []
      exact ⟨_, t, ht, by decide⟩
  | obj ms =>
      obtain ⟨-, t, ht⟩ := chars_bracket [] ms
      exact ⟨_, t, ht, by decide⟩

/-- An array that has items is read as the list of them. -/
theorem value_arr (d : Nat) (items : List Json) (hne : items ≠ []) (rest : List Char) :
    ∃ fuel, items.length < fuel ∧ value (d + 1) (chars (.arr items) ++ rest) =
      (list (value d) fuel false (separated ']' (items.map chars) ++ rest)).map
        fun (vs, rest) => (.arr vs, rest) := by
  obtain ⟨v, items, rfl⟩ := List.exists_cons_of_ne_nil hne
  have hlen := length_lt_separated ']' (items.map chars)
  refine ⟨(v.chars ++ separated ']' (items.map chars) ++ rest).length + 1, ?_, ?_⟩
  · simp only [List.length_append, List.length_cons, List.length_map] at hlen ⊢
    omega
  · rw [chars_arr, List.cons_append, List.cons_append, value, skipSpace_cons _ (by decide)]
    simp only [if_true]
    rw [List.append_assoc, list_first_eq (isItemHead_chars v), List.map_cons, separated_cons,
      List.cons_append, List.cons_append, List.append_assoc]

/-- An array is read from its items. -/
theorem isReadBy_arr {d : Nat} {items ws : List Json}
    (h : List.Forall₂ (IsReadBy (value d)) (items.map chars) ws) :
    IsReadBy (value (d + 1)) (chars (.arr items)) (.arr ws) := by
  refine ⟨isItemHead_chars _, fun rest _ => ?_⟩
  by_cases hne : items = []
  · subst hne
    cases h
    rfl
  · obtain ⟨fuel, hfuel, hvalue⟩ := value_arr d _ hne rest
    rw [hvalue, list_separated h rest fuel (by rwa [List.length_map])]
    rfl

/-! ## Objects -/

/-- A member is read with its key. -/
structure IsReadAs (item : Reader Json) (m n : String × Json) : Prop where
  key : m.1 = n.1
  read : ∀ rest, EndsValue rest → item (m.2.chars ++ rest) = .ok (n.2, rest)

section

variable {item : Reader Json} {m n : String × Json} {ms ns : List (String × Json)}

/-- Members after the first are read from their texts. -/
theorem members_separated (h : List.Forall₂ (IsReadAs item) ms ns) (rest : List Char)
    (fuel : Nat) (hfuel : ms.length < fuel) :
    members item fuel false (separated '\x7d' (ms.map memberChars) ++ rest) = .ok (ns, rest) := by
  induction h generalizing fuel with
  | nil =>
      obtain ⟨fuel, rfl⟩ := Nat.exists_eq_succ_of_ne_zero (Nat.ne_of_gt hfuel)
      rw [List.map_nil, separated_nil, List.cons_append, List.nil_append, Nat.succ_eq_add_one,
        members, nextKey_end, ok_bind]
      rfl
  | @cons m n ms ns hm hms ih =>
      obtain ⟨fuel, rfl⟩ : ∃ n, fuel = n + 1 := ⟨fuel - 1, by simp at hfuel; omega⟩
      have hrest := ih fuel (by simp at hfuel; omega)
      have hitem := hm.read _ (endsValue_separated (.inr rfl) (ms.map memberChars) rest)
      have hkey := string_escaped m.1
        (':' :: (m.2.chars ++ (separated '\x7d' (ms.map memberChars) ++ rest)))
      rw [List.map_cons, separated_cons, memberChars, quotedChars]
      rw [hm.key] at hkey
      simp only [List.append_assoc, List.cons_append, List.nil_append] at hkey ⊢
      rw [members, nextKey_comma, ok_bind]
      simp only [if_true, hkey, ok_bind, colon_cons, hitem, hrest, hm.key]
      rfl

end

/-- An object that has members is read as the list of them. -/
theorem value_obj (d : Nat) (ms : List (String × Json)) (hne : ms ≠ []) (rest : List Char) :
    ∃ fuel, ms.length < fuel ∧ value (d + 1) (chars (.obj ms) ++ rest) =
      (members (value d) fuel false (separated '\x7d' (ms.map memberChars) ++ rest)).map
        fun (ns, rest) => (object ns, rest) := by
  obtain ⟨m, ms, rfl⟩ := List.exists_cons_of_ne_nil hne
  have hlen := length_lt_separated '\x7d' (ms.map memberChars)
  refine ⟨(memberChars m ++ separated '\x7d' (ms.map memberChars) ++ rest).length + 1, ?_, ?_⟩
  · simp only [List.length_append, List.length_cons, List.length_map] at hlen ⊢
    omega
  · rw [chars_obj, List.cons_append, List.cons_append, value, skipSpace_cons _ (by decide)]
    simp only [Char.reduceEq, if_false, if_true]
    rw [List.map_cons, separated_cons, memberChars, quotedChars]
    simp only [List.append_assoc, List.cons_append, List.nil_append]
    rw [members, members, nextKey_first, nextKey_comma]

/-- An object is read from its members. -/
theorem isReadBy_obj {d : Nat} {ms ns : List (String × Json)}
    (h : List.Forall₂ (IsReadAs (value d)) ms ns) :
    IsReadBy (value (d + 1)) (chars (.obj ms)) (object ns) := by
  refine ⟨isItemHead_chars _, fun rest _ => ?_⟩
  by_cases hne : ms = []
  · subst hne
    cases h
    rfl
  · obtain ⟨fuel, hfuel, hvalue⟩ := value_obj d _ hne rest
    rw [hvalue, members_separated h rest fuel hfuel]
    rfl

/-! ## Documents that are read back -/

mutual

/-- A document is read as some document if its depth is allowed, and as itself if its text
tells it exactly. -/
theorem exists_isReadBy : (v : Json) → (d : Nat) → v.depth ≤ d → v.Fits →
    ∃ w, IsReadBy (value d) v.chars w ∧ (v.IsExact → w = v)
  | .null, d, _, _ => ⟨_, isReadBy_null d, fun _ => rfl⟩
  | .bool b, d, _, _ => ⟨_, isReadBy_bool d b, fun _ => rfl⟩
  | .num _, d, _, hfits => exists_isReadBy_num d hfits
  | .str s, d, _, _ => ⟨_, isReadBy_str d s, fun _ => rfl⟩
  | .arr _, 0, hdepth, _ => absurd hdepth (Nat.not_succ_le_zero _)
  | .obj _, 0, hdepth, _ => absurd hdepth (Nat.not_succ_le_zero _)
  | .arr items, d + 1, hdepth, hfits =>
      let ⟨_, hws, heq⟩ := exists_isReadBy_items items d (Nat.le_of_succ_le_succ hdepth) hfits
      ⟨_, isReadBy_arr hws, fun hexact => congrArg arr (heq hexact)⟩
  | .obj members, d + 1, hdepth, hfits =>
      let ⟨_, hns, heq⟩ := exists_isReadAs_members members d (Nat.le_of_succ_le_succ hdepth) hfits
      ⟨_, isReadBy_obj hns, fun hexact =>
        (congrArg object (heq hexact.2)).trans (object_of_pairwise hexact.1)⟩

theorem exists_isReadBy_items : (items : List Json) → (d : Nat) → depthItems items ≤ d →
    FitsItems items → ∃ ws, List.Forall₂ (IsReadBy (value d)) (items.map chars) ws ∧
      (IsExactItems items → ws = items)
  | [], _, _, _ => ⟨[], .nil, fun _ => rfl⟩
  | v :: items, d, hdepth, hfits =>
      let ⟨_, hw, heq⟩ := exists_isReadBy v d (Nat.le_trans (Nat.le_max_left _ _) hdepth) hfits.1
      let ⟨_, hws, heqs⟩ := exists_isReadBy_items items d
        (Nat.le_trans (Nat.le_max_right _ _) hdepth) hfits.2
      ⟨_, .cons hw hws, fun hexact => congrArg₂ List.cons (heq hexact.1) (heqs hexact.2)⟩

theorem exists_isReadAs_members : (ms : List (String × Json)) → (d : Nat) →
    depthMembers ms ≤ d → FitsMembers ms → ∃ ns, List.Forall₂ (IsReadAs (value d)) ms ns ∧
      (IsExactMembers ms → ns = ms)
  | [], _, _, _ => ⟨[], .nil, fun _ => rfl⟩
  | (k, v) :: ms, d, hdepth, hfits =>
      let ⟨w, hw, heq⟩ := exists_isReadBy v d (Nat.le_trans (Nat.le_max_left _ _) hdepth) hfits.1
      let ⟨_, hns, heqs⟩ := exists_isReadAs_members ms d
        (Nat.le_trans (Nat.le_max_right _ _) hdepth) hfits.2
      ⟨_, .cons (b := (k, w)) ⟨rfl, hw.read⟩ hns,
        fun hexact => congrArg₂ List.cons (congrArg _ (heq hexact.1)) (heqs hexact.2)⟩

end

/-- A document that is read from its text alone is parsed. -/
theorem parse_of_isReadBy {v w : Json} (h : IsReadBy (value depthLimit) v.chars w) :
    parse v.render = .ok w := by
  have hread := h.read [] endsValue_nil
  rw [List.append_nil] at hread
  rw [parse, render, String.toList_ofList, whole, hread]
  rfl

/-- A document can be read from its text if its depth is allowed. -/
theorem exists_parse {v : Json} (hdepth : v.depth ≤ depthLimit) (hfits : v.Fits) :
    ∃ w, parse v.render = .ok w := by
  obtain ⟨w, hw, -⟩ := exists_isReadBy v depthLimit hdepth hfits
  exact ⟨w, parse_of_isReadBy hw⟩

/-- A document of whole numbers is read back as it was if its depth is allowed. -/
theorem parse_render {v : Json} (hdepth : v.depth ≤ depthLimit) (hfits : v.Fits)
    (hexact : v.IsExact) : parse v.render = .ok v := by
  obtain ⟨w, hw, heq⟩ := exists_isReadBy v depthLimit hdepth hfits
  obtain rfl := heq hexact
  exact parse_of_isReadBy hw

/-! ## Documents that are too deep -/

/-- The first item that is too deep, if there is one. -/
theorem exists_deep_item {items : List Json} {d : Nat} (hdepth : d < depthItems items)
    (hfits : FitsItems items) :
    ∃ items₁ v items₂, items = items₁ ++ v :: items₂ ∧ depthItems items₁ ≤ d ∧
      FitsItems items₁ ∧ d < v.depth ∧ v.Fits := by
  induction items with
  | nil => exact absurd hdepth (Nat.not_lt_zero _)
  | cons v items ih =>
      by_cases hv : d < v.depth
      · exact ⟨[], v, items, rfl, Nat.zero_le _, trivial, hv, hfits.1⟩
      · rw [depthItems] at hdepth
        obtain ⟨items₁, w, items₂, rfl, hle, hfits₁, hw⟩ := ih (by omega) hfits.2
        exact ⟨v :: items₁, w, items₂, rfl, Nat.max_le.mpr ⟨Nat.not_lt.mp hv, hle⟩,
          ⟨hfits.1, hfits₁⟩, hw⟩

/-- The first member that is too deep, if there is one. -/
theorem exists_deep_member {ms : List (String × Json)} {d : Nat} (hdepth : d < depthMembers ms)
    (hfits : FitsMembers ms) :
    ∃ ms₁ m ms₂, ms = ms₁ ++ m :: ms₂ ∧ depthMembers ms₁ ≤ d ∧ FitsMembers ms₁ ∧
      d < m.2.depth ∧ m.2.Fits := by
  induction ms with
  | nil => exact absurd hdepth (Nat.not_lt_zero _)
  | cons m ms ih =>
      by_cases hm : d < m.2.depth
      · exact ⟨[], m, ms, rfl, Nat.zero_le _, trivial, hm, hfits.1⟩
      · rw [depthMembers] at hdepth
        obtain ⟨ms₁, n, ms₂, rfl, hle, hfits₁, hn⟩ := ih (by omega) hfits.2
        exact ⟨m :: ms₁, n, ms₂, rfl, Nat.max_le.mpr ⟨Nat.not_lt.mp hm, hle⟩,
          ⟨hfits.1, hfits₁⟩, hn⟩

/-- An array is not read past an item that is not. -/
theorem list_stops {α : Type} {item : Reader α} {ps : List (List Char)} {as : List α}
    (h : List.Forall₂ (IsReadBy item) ps as) {p : List Char} (hhead : IsItemHead p)
    (hp : ∀ rest, EndsValue rest → ∃ f, item (p ++ rest) = .error f) (qs : List (List Char))
    (rest : List Char) (fuel : Nat) (hfuel : ps.length < fuel) :
    ∃ f, list item fuel false (separated ']' (ps ++ p :: qs) ++ rest) = .error f := by
  obtain ⟨fuel, rfl⟩ : ∃ n, fuel = n + 1 := ⟨fuel - 1, by omega⟩
  induction h generalizing fuel with
  | nil =>
      obtain ⟨f, hf⟩ := hp _ (endsValue_separated (.inl rfl) qs rest)
      refine ⟨f, ?_⟩
      rw [List.nil_append, separated_cons, List.append_assoc, List.cons_append, list,
        nextItem_comma hhead, ok_bind]
      simp only [if_true, hf]
      rfl
  | @cons r a ps as hr _ ih =>
      obtain ⟨fuel, rfl⟩ : ∃ n, fuel = n + 1 := ⟨fuel - 1, by simp at hfuel; omega⟩
      obtain ⟨f, hf⟩ := ih fuel (by simp at hfuel; omega)
      have hitem := hr.read _ (endsValue_separated (.inl rfl) (ps ++ p :: qs) rest)
      refine ⟨f, ?_⟩
      rw [List.cons_append, separated_cons, List.append_assoc, List.cons_append, list,
        nextItem_comma hr.head, ok_bind]
      simp only [if_true, hitem, ok_bind, hf]
      rfl

/-- An object is not read past a member that is not. -/
theorem members_stops {item : Reader Json} {ms ns : List (String × Json)}
    (h : List.Forall₂ (IsReadAs item) ms ns) {m : String × Json}
    (hm : ∀ rest, EndsValue rest → ∃ f, item (m.2.chars ++ rest) = .error f)
    (ms' : List (String × Json)) (rest : List Char) (fuel : Nat) (hfuel : ms.length < fuel) :
    ∃ f, members item fuel false (separated '\x7d' ((ms ++ m :: ms').map memberChars) ++ rest) =
      .error f := by
  obtain ⟨fuel, rfl⟩ : ∃ n, fuel = n + 1 := ⟨fuel - 1, by omega⟩
  induction h generalizing fuel with
  | nil =>
      obtain ⟨f, hf⟩ := hm _ (endsValue_separated (.inr rfl) (ms'.map memberChars) rest)
      have hkey := string_escaped m.1
        (':' :: (m.2.chars ++ (separated '\x7d' (ms'.map memberChars) ++ rest)))
      refine ⟨f, ?_⟩
      rw [List.nil_append, List.map_cons, separated_cons, memberChars, quotedChars]
      simp only [List.append_assoc, List.cons_append, List.nil_append] at hkey ⊢
      rw [members, nextKey_comma, ok_bind]
      simp only [if_true, hkey, ok_bind, colon_cons, hf]
      rfl
  | @cons r n ms ns hr _ ih =>
      obtain ⟨fuel, rfl⟩ : ∃ n, fuel = n + 1 := ⟨fuel - 1, by simp at hfuel; omega⟩
      obtain ⟨f, hf⟩ := ih fuel (by simp at hfuel; omega)
      have hitem := hr.read _
        (endsValue_separated (.inr rfl) ((ms ++ m :: ms').map memberChars) rest)
      have hkey := string_escaped r.1
        (':' :: (r.2.chars ++ (separated '\x7d' ((ms ++ m :: ms').map memberChars) ++ rest)))
      refine ⟨f, ?_⟩
      rw [List.cons_append, List.map_cons, separated_cons, memberChars, quotedChars]
      simp only [List.append_assoc, List.cons_append, List.nil_append] at hkey ⊢
      rw [members, nextKey_comma, ok_bind]
      simp only [if_true, hkey, ok_bind, colon_cons, hitem, hf]
      rfl

/-- A document that is too deep is not read. -/
theorem value_deep {d : Nat} {v : Json} (hdepth : d < v.depth) (hfits : v.Fits)
    (rest : List Char) : ∃ f, value d (v.chars ++ rest) = .error f := by
  induction d generalizing v rest with
  | zero =>
      cases v with
      | null | bool _ | num _ | str _ => exact absurd hdepth (Nat.not_lt_zero _)
      | arr items =>
          obtain ⟨⟨t, ht⟩, -⟩ := chars_bracket items []
          rw [ht, List.cons_append, value, skipSpace_cons _ (by decide)]
          exact ⟨_, rfl⟩
      | obj ms =>
          obtain ⟨-, t, ht⟩ := chars_bracket [] ms
          rw [ht, List.cons_append, value, skipSpace_cons _ (by decide)]
          exact ⟨_, rfl⟩
  | succ d ih =>
      cases v with
      | null | bool _ | num _ | str _ => exact absurd hdepth (Nat.not_lt_zero _)
      | arr items =>
          obtain ⟨items₁, v, items₂, rfl, hle, hfits₁, hv, hvfits⟩ :=
            exists_deep_item (Nat.lt_of_succ_lt_succ hdepth) hfits
          obtain ⟨ws, hws, -⟩ := exists_isReadBy_items items₁ d hle hfits₁
          obtain ⟨fuel, hfuel, hvalue⟩ := value_arr d (items₁ ++ v :: items₂) (by simp) rest
          obtain ⟨f, hf⟩ := list_stops hws (isItemHead_chars v)
            (fun rest _ => ih hv hvfits rest) (items₂.map chars) rest fuel
            (by simp only [List.length_append, List.length_map] at hfuel ⊢; omega)
          refine ⟨f, ?_⟩
          rw [hvalue, List.map_append, List.map_cons, hf]
          rfl
      | obj ms =>
          obtain ⟨ms₁, m, ms₂, rfl, hle, hfits₁, hm, hmfits⟩ :=
            exists_deep_member (Nat.lt_of_succ_lt_succ hdepth) hfits
          obtain ⟨ns, hns, -⟩ := exists_isReadAs_members ms₁ d hle hfits₁
          obtain ⟨fuel, hfuel, hvalue⟩ := value_obj d (ms₁ ++ m :: ms₂) (by simp) rest
          obtain ⟨f, hf⟩ := members_stops hns (fun rest _ => ih hm hmfits rest) ms₂ rest fuel
            (by simp only [List.length_append] at hfuel; omega)
          refine ⟨f, ?_⟩
          rw [hvalue, hf]
          rfl

/-- A document whose whole numbers have 64 bits is read back from its text exactly if it is
not nested too deeply. -/
theorem exists_parse_iff {v : Json} (hfits : v.Fits) :
    (∃ w, parse v.render = .ok w) ↔ v.depth ≤ depthLimit := by
  refine ⟨fun ⟨w, hw⟩ => Nat.not_lt.mp fun hdepth => ?_, fun hdepth => exists_parse hdepth hfits⟩
  obtain ⟨f, hf⟩ := value_deep hdepth hfits []
  rw [List.append_nil] at hf
  rw [parse, render, String.toList_ofList, whole, hf] at hw
  cases hw

end Json

end JobQueue
