import JobQueue.Text.Bytes

/-!
# JobQueue.Json.Basic

JSON documents. A number is a whole number of 64 bits, with or without a sign,
or a double-precision number. The members of an object are kept in the byte
order of their keys, each key once.
-/

namespace JobQueue

/-- A number of a document. -/
inductive Number where
  /-- A whole number from `-2 ^ 63` up to `2 ^ 64 - 1`. -/
  | int (n : Int)
  /-- Any other number. -/
  | float (x : Float)
  deriving DecidableEq

/-- A JSON document. -/
inductive Json where
  | null
  | bool (b : Bool)
  | num (n : Number)
  | str (s : String)
  | arr (items : List Json)
  | obj (members : List (String × Json))
  deriving Inhabited

namespace Json

/-- A whole number as a document. -/
def int (n : Int) : Json := .num (.int n)

/-- A double-precision number as a document; documents have no infinities. -/
def float (x : Float) : Json := if x.isFinite then .num (.float x) else .null

/-! ## Objects -/

/-- Set a key of an object, in the place that the order of keys gives it. -/
def setMember (key : String) (v : Json) : List (String × Json) → List (String × Json)
  | [] => [(key, v)]
  | (k, w) :: rest =>
      if key < k then (key, v) :: (k, w) :: rest
      else if key = k then (key, v) :: rest
      else (k, w) :: setMember key v rest

/-- The object with the given members; a later member replaces an earlier one of its key. -/
def object (members : List (String × Json)) : Json :=
  .obj (members.foldl (fun acc m => setMember m.1 m.2 acc) [])

/-- A key after all others is set at the end. -/
theorem setMember_of_lt {key : String} {v : Json} {members : List (String × Json)}
    (h : ∀ m ∈ members, m.1 < key) : setMember key v members = members ++ [(key, v)] := by
  induction members with
  | nil => rfl
  | cons m members ih =>
      have hlt : m.1 < key := h m List.mem_cons_self
      have hne : key ≠ m.1 := fun heq => String.lt_irrefl key (heq ▸ hlt)
      rw [setMember, if_neg (String.lt_asymm hlt), if_neg hne,
        ih fun n hn => h n (List.mem_cons_of_mem _ hn), List.cons_append]

theorem foldl_setMember {acc members : List (String × Json)}
    (h : (acc ++ members).Pairwise fun m n => m.1 < n.1) :
    members.foldl (fun acc m => setMember m.1 m.2 acc) acc = acc ++ members := by
  induction members generalizing acc with
  | nil => rw [List.append_nil]; rfl
  | cons m members ih =>
      have hlast : ∀ n ∈ acc, n.1 < m.1 := fun n hn =>
        (List.pairwise_append.mp h).2.2 n hn m List.mem_cons_self
      have hcons : acc ++ m :: members = acc ++ [m] ++ members := by simp
      rw [hcons] at h ⊢
      rw [List.foldl_cons, setMember_of_lt hlast, ih h]

/-- Members that stand in the order of their keys are the members of their object. -/
theorem object_of_pairwise {members : List (String × Json)}
    (h : members.Pairwise fun m n => m.1 < n.1) : object members = .obj members :=
  congrArg obj (foldl_setMember (by rwa [List.nil_append]))

/-- The value of a key among the members of an object. -/
def member? (key : String) (members : List (String × Json)) : Option Json :=
  members.lookup key

/-- The value of a key, if the document is an object that has it. -/
def get? (key : String) : Json → Option Json
  | .obj members => member? key members
  | _ => none

/-- A text or nothing. -/
def optional {α : Type} (f : α → Json) : Option α → Json
  | none => .null
  | some a => f a

/-- Arrays within arrays, `n` of them, around a null. -/
def nested : Nat → Json
  | 0 => .null
  | n + 1 => .arr [nested n]

/-! ## Depth -/

mutual

/-- How many arrays and objects enclose the innermost value. -/
def depth : Json → Nat
  | .arr items => depthItems items + 1
  | .obj members => depthMembers members + 1
  | _ => 0

/-- The greatest depth among the items of an array. -/
def depthItems : List Json → Nat
  | [] => 0
  | v :: rest => max (depth v) (depthItems rest)

/-- The greatest depth among the members of an object. -/
def depthMembers : List (String × Json) → Nat
  | [] => 0
  | (_, v) :: rest => max (depth v) (depthMembers rest)

end

@[simp] theorem depth_nested (n : Nat) : (nested n).depth = n := by
  induction n with
  | zero => simp [nested, depth]
  | succ n ih => simp [nested, depth, depthItems, ih]

end Json

end JobQueue
