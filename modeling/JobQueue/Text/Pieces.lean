/-!
# JobQueue.Text.Pieces

Texts taken apart.

- `pieces` cuts a text at every mark of one kind, and `joined` puts it together again;
  `lines` cuts it at its line ends.
- `after?` takes the beginning off a text; `cutLast?` cuts it where a word stands for
  the last time.
-/

namespace JobQueue.Text

/-- The pieces between the marks of a text, empty ones included. -/
def pieces (mark : Char) : List Char → List (List Char)
  | [] => [[]]
  | c :: cs =>
      if c = mark then [] :: pieces mark cs
      else
        match pieces mark cs with
        | [] => [[c]]
        | p :: ps => (c :: p) :: ps

/-- Pieces with a mark between each two. -/
def joined (mark : Char) : List (List Char) → List Char
  | [] => []
  | [p] => p
  | p :: ps => p ++ mark :: joined mark ps

theorem pieces_ne_nil (mark : Char) (cs : List Char) : pieces mark cs ≠ [] := by
  cases cs with
  | nil => simp [pieces]
  | cons c cs =>
      simp only [pieces]
      split
      · simp
      · split <;> simp

theorem joined_cons (mark : Char) (p : List Char) {ps : List (List Char)} (h : ps ≠ []) :
    joined mark (p :: ps) = p ++ mark :: joined mark ps := by
  cases ps with
  | nil => exact (h rfl).elim
  | cons q qs => rfl

/-- Pieces put together are the text. -/
theorem joined_pieces (mark : Char) (cs : List Char) : joined mark (pieces mark cs) = cs := by
  induction cs with
  | nil => rfl
  | cons c cs ih =>
      simp only [pieces]
      split
      · rename_i h
        rw [joined_cons mark [] (pieces_ne_nil mark cs), ih, h, List.nil_append]
      · split
        · rename_i h
          exact (pieces_ne_nil mark cs h).elim
        · rename_i p ps h
          rw [h] at ih
          rw [← ih]
          cases ps <;> rfl

/-- No piece has a mark. -/
theorem not_mem_of_mem_pieces {mark : Char} {cs p : List Char} (h : p ∈ pieces mark cs) :
    mark ∉ p := by
  induction cs generalizing p with
  | nil => simp_all [pieces]
  | cons c cs ih =>
      simp only [pieces] at h
      split at h
      · rcases List.mem_cons.1 h with rfl | h
        · simp
        · exact ih h
      · rename_i hc
        split at h
        · rename_i hn
          exact (pieces_ne_nil mark cs hn).elim
        · rename_i q qs hq
          rcases List.mem_cons.1 h with rfl | h
          · have hm := ih (p := q) (hq ▸ List.mem_cons_self)
            exact fun e => (List.mem_cons.1 e).elim (fun e => hc e.symm) hm
          · exact ih (hq ▸ List.mem_cons_of_mem _ h)

/-! ## Lines -/

/-- A line without the return that may stand at its end. -/
def withoutReturn (cs : List Char) : List Char :=
  if cs.getLast? = some '\r' then cs.dropLast else cs

/-- The lines of a text that a newline follows. -/
def lines (s : String) : List String :=
  (pieces '\n' s.toList).map fun p => String.ofList (withoutReturn p)

/-! ## Words -/

/-- The text after its beginning, if it has that beginning. -/
def after? : (start cs : List Char) → Option (List Char)
  | [], cs => some cs
  | _ :: _, [] => none
  | s :: start, c :: cs => if s = c then after? start cs else none

/-- A text has a beginning just if the rest follows on it. -/
theorem after?_eq_some_iff {start cs rest : List Char} :
    after? start cs = some rest ↔ cs = start ++ rest := by
  induction start generalizing cs with
  | nil => simp [after?]
  | cons s start ih =>
      cases cs with
      | nil => simp [after?]
      | cons c cs =>
          by_cases h : s = c
          · simp [after?, h, ih]
          · simp [after?, h, Ne.symm h]

/-- The text before the last place where a word stands, and the text after it. -/
def cutLast? (word : List Char) : List Char → Option (List Char × List Char)
  | [] => (after? word []).map fun rest => ([], rest)
  | c :: cs =>
      match cutLast? word cs with
      | some (front, rest) => some (c :: front, rest)
      | none => (after? word (c :: cs)).map fun rest => ([], rest)

/-- The word stands between the two parts. -/
theorem eq_of_cutLast? {word cs front rest : List Char}
    (h : cutLast? word cs = some (front, rest)) : cs = front ++ word ++ rest := by
  induction cs generalizing front with
  | nil =>
      obtain ⟨r, hr, he⟩ := Option.map_eq_some_iff.1 h
      cases he
      exact after?_eq_some_iff.1 hr
  | cons c cs ih =>
      simp only [cutLast?] at h
      split at h
      · rename_i f r hc
        cases h
        simp [ih hc]
      · obtain ⟨r, hr, he⟩ := Option.map_eq_some_iff.1 h
        cases he
        exact after?_eq_some_iff.1 hr

end JobQueue.Text
