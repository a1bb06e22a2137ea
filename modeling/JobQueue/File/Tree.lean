import JobQueue.Text.Pieces

/-!
# JobQueue.File.Tree

The directories and files around a program, as far as they are known.

- A `Path` is a text cut at its slashes; a `Place` is where a path leads.
- `Tree.find` walks a path, one directory after the other.
- `Tree.makeAll` makes a directory and, before it, the directories above it that
  are missing. A tree only grows by it.
-/

namespace JobQueue.File

/-! ## Paths and places -/

/-- A path: where it begins, and its names, which may lead upwards. -/
structure Path where
  /-- Whether it begins at the root, and not at the working directory. -/
  fromRoot : Bool
  names : List String
  deriving DecidableEq

/-- The path of a text. Names that lead nowhere are left out. -/
def Path.ofText (text : String) : Path :=
  let names := (Text.pieces '/' text.toList).filter fun n => n ≠ [] && n ≠ ['.']
  ⟨text.toList.head? == some '/', names.map String.ofList⟩

/-- The bytes of a path when it is written. -/
def Path.size (p : Path) : Nat :=
  (p.names.map fun n => n.utf8ByteSize + 1).foldl (· + ·) 0

/-- Whether a name holds a NUL, which no file system takes. -/
def Path.hasNul (p : Path) : Bool := p.names.any fun n => n.toList.contains '\x00'

/-- The path of the directory above. -/
def Path.parent (p : Path) : Path := { p with names := p.names.dropLast }

/-- A place: a path that leads upwards with its first names at most. -/
abbrev Place := Path

namespace Place

/-- The name that leads upwards. -/
def upwards : String := ".."

/-- The place above. The root is above itself. -/
def up (p : Place) : Place :=
  match p.names.getLast? with
  | none => if p.fromRoot then p else { p with names := [upwards] }
  | some n => { p with names := if n = upwards then p.names ++ [n] else p.names.dropLast }

/-- The place that a name leads to. -/
def step (p : Place) (name : String) : Place :=
  if name = upwards then p.up else { p with names := p.names ++ [name] }

/-- Whether the place is the beginning of paths, or above it. -/
def isOuter (p : Place) : Bool := p.names.all (· == upwards)

end Place

/-! ## Trees -/

/-- What stands at a place. -/
inductive Entry where
  | directory
  /-- An empty file. -/
  | plain
  /-- A file with a database that is in use. -/
  | database
  /-- A file that holds something else. -/
  | foreign
  deriving DecidableEq

/-- What stands at the known places, other than directories that paths begin in. -/
structure Tree where
  entries : List (Place × Entry) := []

/-- Why a path does not lead to a place, or a directory is not made. -/
inductive Fault where
  | missing
  | exists
  | notDirectory
  | nameTooLong
  /-- A name holds a NUL. -/
  | nul
  deriving DecidableEq

/-- The wording of a fault. -/
def Fault.message : Fault → String
  | .missing => "No such file or directory (os error 2)"
  | .exists => "File exists (os error 17)"
  | .notDirectory => "Not a directory (os error 20)"
  | .nameTooLong => "File name too long (os error 36)"
  | .nul => "file name contained an unexpected NUL byte"

/-- The bytes that a name may have. -/
def maxName : Nat := 255

/-- The bytes that a path may have. -/
def maxPath : Nat := 4096

namespace Tree

/-- What stands at a place. -/
def entry? (t : Tree) (p : Place) : Option Entry :=
  if p.isOuter then some .directory else t.entries.lookup p

/-- The tree with something at a new place. -/
def add (t : Tree) (p : Place) (e : Entry) : Tree := ⟨t.entries ++ [(p, e)]⟩

/-- The place of a name in a directory. -/
def child (t : Tree) (p : Place) (name : String) : Except Fault Place :=
  match t.entry? p with
  | none => .error .missing
  | some .directory =>
      if maxName < name.utf8ByteSize then .error .nameTooLong else .ok (p.step name)
  | some _ => .error .notDirectory

/-- The place that a path leads to. Only the last of its names may be new. -/
def find (t : Tree) (p : Path) : Except Fault Place :=
  if p.hasNul then .error .nul
  else if maxPath < p.size then .error .nameTooLong
  else p.names.foldlM t.child ⟨p.fromRoot, []⟩

/-- Whether a path leads to something. -/
def has (t : Tree) (p : Path) : Bool :=
  match t.find p with
  | .ok q => (t.entry? q).isSome
  | .error _ => false

/-- Whether a path leads to a directory. -/
def hasDirectory (t : Tree) (p : Path) : Bool :=
  match t.find p with
  | .ok q => t.entry? q == some .directory
  | .error _ => false

/-- Make one directory. -/
def make (t : Tree) (p : Path) : Except Fault Tree := do
  let q ← t.find p
  if (t.entry? q).isSome then throw .exists else return t.add q .directory

/-- Make one directory, unless it is there. -/
def ensure (t : Tree) (p : Path) : Except Fault Tree :=
  match t.make p with
  | .ok t => .ok t
  | .error f => if t.hasDirectory p then .ok t else .error f

/-- Make the directories of names, given from the last to the first. -/
def makeNames (t : Tree) (fromRoot : Bool) : List String → Except Fault Tree
  | [] => .ok t
  | last :: before =>
      let p : Path := ⟨fromRoot, (last :: before).reverse⟩
      match t.make p with
      | .error .missing => do (← makeNames t fromRoot before).ensure p
      | _ => t.ensure p

/-- Make a directory and those above it. -/
def makeAll (t : Tree) (p : Path) : Except Fault Tree :=
  t.makeNames p.fromRoot p.names.reverse

/-! ## Made directories are found -/

theorem make_grows {t u : Tree} {p : Path} (h : t.make p = .ok u) :
    t.entries <+: u.entries := by
  unfold make at h
  cases hq : t.find p with
  | error f => simp [hq, bind, Except.bind] at h
  | ok q =>
      simp only [hq, bind, Except.bind] at h
      split at h
      · cases h
      · cases h
        exact List.prefix_append ..

theorem ensure_grows {t u : Tree} {p : Path} (h : t.ensure p = .ok u) :
    t.entries <+: u.entries := by
  unfold ensure at h
  split at h
  · rename_i hm
    cases h
    exact make_grows hm
  · split at h
    · cases h
      exact List.prefix_rfl
    · cases h

/-- Making directories removes and changes nothing. -/
theorem makeNames_grows {t u : Tree} {fromRoot : Bool} {names : List String}
    (h : t.makeNames fromRoot names = .ok u) : t.entries <+: u.entries := by
  induction names generalizing u with
  | nil =>
      cases h
      exact List.prefix_rfl
  | cons last before ih =>
      simp only [makeNames] at h
      split at h
      · cases hb : t.makeNames fromRoot before with
        | error f => simp [hb, bind, Except.bind] at h
        | ok v =>
            simp only [hb, bind, Except.bind] at h
            exact (ih hb).trans (ensure_grows h)
      · exact ensure_grows h

end Tree

end JobQueue.File
