import JobQueue.Codec.Format
import JobQueue.Text.Bytes
import JobQueue.Text.Hexadecimal

/-!
# JobQueue.Job.Id

The identity of a job: 128 bits, written as 32 hexadecimal digits in five groups.

- `JobId.text` writes an identity; `JobId.parse` reads it, also without hyphens,
  in braces or after `urn:uuid:`.
- `JobId.numbered n` is the `n`-th random identity of version 4: all of them
  differ (`numbered_inj`).
-/

namespace JobQueue

/-- The identity of a job. -/
structure JobId where
  /-- The 128 bits as a number. -/
  value : Fin (2 ^ 128)
  deriving DecidableEq

namespace JobId

/-- The identity of the low 128 bits of a number. -/
def ofNat (n : Nat) : JobId := ⟨⟨n % 2 ^ 128, Nat.mod_lt _ (by decide)⟩⟩

open Text

/-! ## Groups of digits -/

/-- The lengths of the groups. -/
def groups : List Nat := [8, 4, 4, 4, 12]

/-- Characters in groups of the given lengths, with hyphens between them. -/
def group : List Nat → List Char → List Char
  | [], _ => []
  | [_], cs => cs
  | n :: ns, cs => cs.take n ++ '-' :: group ns (cs.drop n)

/-- Take hyphens out from between groups of the given lengths. -/
def ungroup : List Nat → List Char → Option (List Char)
  | [], cs => if cs.isEmpty then some [] else none
  | [n], cs => if cs.length = n then some cs else none
  | n :: ns, cs =>
      match cs.drop n with
      | '-' :: rest => (ungroup ns rest).map (cs.take n ++ ·)
      | _ => none

theorem ungroup_group (ns : List Nat) (cs : List Char) (h : cs.length = ns.foldr (· + ·) 0) :
    ungroup ns (group ns cs) = some cs := by
  induction ns generalizing cs with
  | nil => simp_all [group, ungroup]
  | cons n ns ih =>
      cases ns with
      | nil => simp_all [group, ungroup]
      | cons m ns =>
          have hn : n ≤ cs.length := by simp only [h, List.foldr_cons]; omega
          have hrest := ih (cs.drop n) (by
            simp only [List.length_drop, h, List.foldr_cons]; omega)
          have htake : (cs.take n).length = n := by simp [hn]
          simp [group, ungroup, htake, hrest]

/-! ## Writing -/

/-- The characters of an identity. -/
def chars (id : JobId) : List Char := group groups (paddedHex 32 id.value.val)

/-- The text of an identity. -/
def text (id : JobId) : String := String.ofList id.chars

/-! ## Reading -/

/-- Why a text is no identity. -/
inductive Fault where
  /-- A character is neither a digit nor a hyphen. -/
  | character (c : Char) (index : Nat)
  /-- There are no groups, and the wrong number of digits. -/
  | length (found : Nat)
  /-- There are too many or too few groups. -/
  | groupCount (found : Nat)
  /-- A group has the wrong number of digits. -/
  | groupLength (group expected found : Nat)
  deriving DecidableEq

/-- The wording of a fault. -/
def Fault.message : Fault → String
  | .character c index =>
      "invalid character: found `" ++ String.singleton c ++ s!"` at {index}"
  | .length found => s!"invalid length: found {found}"
  | .groupCount found => s!"invalid group count: expected 5, found {found}"
  | .groupLength group expected found =>
      s!"invalid group length in group {group}: expected {expected}, found {found}"

/-- What may stand before the groups, in either case. -/
def urn : List Char := "urn:uuid:".toList

/-- What stands in braces. -/
def braced? (cs : List Char) : Option (List Char) :=
  if cs.length ≥ 2 && cs.head? == some '\x7b' && cs.getLast? == some '\x7d' then
    some (cs.drop 1).dropLast
  else none

/-- What stands after the leading name. -/
def named? (cs : List Char) : Option (List Char) :=
  if (cs.take urn.length).map Char.toLower = urn then some (cs.drop urn.length) else none

/-- What should be the five groups of a text that has the length of a well-formed
one: bare, in braces or after the name. -/
def grouped? (cs : List Char) : Option (List Char) :=
  match byteCount cs with
  | 36 => some cs
  | 38 => braced? cs
  | 45 => named? cs
  | _ => none

/-- The digits of a well-formed text. -/
def digits? (cs : List Char) : Option (List Char) :=
  if byteCount cs = 32 then some cs else (grouped? cs).bind (ungroup groups)

/-- The first character that is neither a digit nor a hyphen, and its byte index. -/
def badCharacter? : Nat → List Char → Option (Char × Nat)
  | _, [] => none
  | index, c :: cs =>
      if c = '-' || (hexValue? c).isSome then badCharacter? (index + c.utf8Size) cs
      else some (c, index)

/-- The lengths of the runs between hyphens. -/
def runs (cs : List Char) : List Nat :=
  (cs.splitOn '-').map List.length

/-- What is wrong with groups that start at the byte `offset` of a text with
`total` bytes. The last group is taken to reach to the end of the text. -/
def groupFault (inner : List Char) (offset total : Nat) : Fault :=
  match badCharacter? offset inner with
  | some (c, index) => .character c index
  | none =>
      let found := runs inner
      if found.length ≠ 5 then .groupCount found.length
      else
        match (groups.zip found).zipIdx.find? fun p => p.1.1 ≠ p.1.2 with
        | some ((expected, n), 4) => .groupLength 4 expected (n + (total - inner.length))
        | some ((expected, n), i) => .groupLength i expected n
        | none => .length total

/-- Why a text that is not well formed is none. A text longer than any
well-formed one has the wrong length, and so has a run of digits alone, unless
its length is that of five groups. -/
def diagnose (cs : List Char) : Fault :=
  let total := byteCount cs
  if total > 45 then .length total
  else
    match grouped? cs with
    | some inner => groupFault inner 0 inner.length
    | none =>
        match braced? cs, named? cs with
        | some inner, _ => groupFault inner 1 total
        | none, some inner => groupFault inner urn.length total
        | none, none =>
            match groupFault cs 0 total with
            | .groupCount 1 => .length total
            | fault => fault

/-- Read an identity. -/
def parse (s : String) : Except Fault JobId :=
  match (digits? s.toList).bind hexNumber? with
  | some n => .ok (ofNat n)
  | none => .error (diagnose s.toList)

/-- Identities as documents. -/
def format : Format JobId :=
  .parsed "uuid::Uuid" "a formatted UUID string"
    (fun s => (parse s).mapError fun f => s!"UUID parsing failed: {f.message}") text

/-! ## Making identities -/

/-- An identity of version 4 with the given random bits around its version and
its variant. -/
def assemble (high : Fin (2 ^ 48)) (middle : Fin (2 ^ 12)) (low : Fin (2 ^ 62)) : JobId :=
  ⟨⟨high.val * 2 ^ 80 + 4 * 2 ^ 76 + middle.val * 2 ^ 64 + 2 * 2 ^ 62 + low.val, by
    have := high.isLt; have := middle.isLt; have := low.isLt; omega⟩⟩

/-- The identity whose random bits are the number `n`. -/
def numbered (n : Nat) : JobId :=
  assemble (.ofNat _ (n / 2 ^ 62 / 2 ^ 12)) (.ofNat _ (n / 2 ^ 62)) (.ofNat _ n)

/-- The version of an identity. -/
def version (id : JobId) : Nat := id.value.val / 2 ^ 76 % 16

theorem version_assemble (high : Fin (2 ^ 48)) (middle : Fin (2 ^ 12)) (low : Fin (2 ^ 62)) :
    (assemble high middle low).version = 4 := by
  obtain ⟨a, ha⟩ := high
  obtain ⟨b, hb⟩ := middle
  obtain ⟨c, hc⟩ := low
  simp only [version, assemble]
  omega

theorem version_numbered (n : Nat) : (numbered n).version = 4 := version_assemble _ _ _

theorem assemble_inj {a a' : Fin (2 ^ 48)} {b b' : Fin (2 ^ 12)} {c c' : Fin (2 ^ 62)}
    (h : assemble a b c = assemble a' b' c') : a = a' ∧ b = b' ∧ c = c' := by
  obtain ⟨a, ha⟩ := a
  obtain ⟨b, hb⟩ := b
  obtain ⟨c, hc⟩ := c
  obtain ⟨a', ha'⟩ := a'
  obtain ⟨b', hb'⟩ := b'
  obtain ⟨c', hc'⟩ := c'
  simp only [assemble, JobId.mk.injEq, Fin.mk.injEq] at h ⊢
  omega

/-- Identities of different numbers differ. -/
theorem numbered_inj {m n : Nat} (hm : m < 2 ^ 122) (hn : n < 2 ^ 122)
    (h : numbered m = numbered n) : m = n := by
  obtain ⟨h₁, h₂, h₃⟩ := assemble_inj h
  simp only [Fin.ofNat, Fin.mk.injEq] at h₁ h₂ h₃
  omega

end JobId

end JobQueue
