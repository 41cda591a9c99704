import Families.Names

/-!
# Maps from paths

Finite maps from paths, kept as entries in the order of the paths.  The main statement says what a
lookup finds after an insertion.
-/

namespace Families

/-- A finite map from paths. -/
structure PathMap (α : Type) where
  /-- The paths and their values. -/
  entries : List (Path × α)
  /-- The paths increase, so that no path is listed twice. -/
  increasing : entries.Pairwise (·.1.id < ·.1.id)

namespace PathMap

variable {α : Type}

/-- Enters a value among increasing paths, in place of the path's old value. -/
def insertInto (path : Path) (value : α) : List (Path × α) → List (Path × α)
  | [] => [(path, value)]
  | first :: rest =>
    if path.id < first.1.id then
      (path, value) :: first :: rest
    else if path = first.1 then
      (path, value) :: rest
    else
      first :: insertInto path value rest

/-- The entry of a path among entries. -/
def find? (path : Path) : List (Path × α) → Option α
  | [] => none
  | first :: rest => if path = first.1 then some first.2 else find? path rest

/-- An entry after an insertion is the new one or an old one. -/
theorem mem_insertInto
    {path : Path}
    {value : α}
    {entry : Path × α}
    {entries : List (Path × α)}
    (found : entry ∈ insertInto path value entries) :
    entry = (path, value) ∨ entry ∈ entries := by
  induction entries with
  | nil => simpa [insertInto] using found
  | cons first rest ih =>
    simp only [insertInto] at found
    split at found
    · simpa using found
    · split at found
      · grind
      · grind

/-- Insertion keeps the paths increasing. -/
theorem insertInto_increasing
    {path : Path}
    {value : α}
    {entries : List (Path × α)}
    (increasing : entries.Pairwise (·.1.id < ·.1.id)) :
    (insertInto path value entries).Pairwise (·.1.id < ·.1.id) := by
  induction increasing with
  | nil => simp [insertInto]
  | @cons first rest smaller restIncreasing ih =>
    have whole := List.Pairwise.cons smaller restIncreasing
    simp only [insertInto]
    split
    · refine List.Pairwise.cons (fun entry found => ?_) whole
      rcases List.mem_cons.1 found with rfl | old
      · assumption
      · exact Nat.lt_trans (by assumption) (smaller entry old)
    · split
      · rename_i same
        exact List.Pairwise.cons (same ▸ smaller) restIncreasing
      · rename_i notSmaller different
        refine List.Pairwise.cons (fun entry found => ?_) ih
        rcases mem_insertInto found with rfl | old
        · exact Nat.lt_of_le_of_ne (Nat.le_of_not_lt notSmaller)
            fun equal => different (Path.ext equal.symm)
        · exact smaller entry old

/-- The map without entries. -/
def empty : PathMap α where
  entries := []
  increasing := List.Pairwise.nil

/-- Gives a path a value, in place of its old one. -/
def insert (map : PathMap α) (path : Path) (value : α) : PathMap α where
  entries := insertInto path value map.entries
  increasing := insertInto_increasing map.increasing

/-- The value of a path. -/
def get? (map : PathMap α) (path : Path) : Option α :=
  find? path map.entries

/-- The values in the order of their paths. -/
def values (map : PathMap α) : List α :=
  map.entries.map (·.2)

/-- The empty map has no values. -/
@[simp]
theorem get?_empty (path : Path) : (empty : PathMap α).get? path = none := rfl

/-- A path beyond all entries has no value. -/
theorem find?_eq_none
    {path : Path}
    {entries : List (Path × α)}
    (beyond : ∀ entry ∈ entries, path.id < entry.1.id) :
    find? path entries = none := by
  induction entries with
  | nil => rfl
  | cons first rest ih =>
    have different : path ≠ first.1 := fun same =>
      Nat.lt_irrefl path.id (by simpa [← same] using beyond first (by simp))
    simp only [find?, if_neg different]
    exact ih fun entry found => beyond entry (by simp [found])

/-- After an insertion the path has its new value and every other path its old one. -/
theorem get?_insert (map : PathMap α) (path other : Path) (value : α) :
    (map.insert path value).get? other = if other = path then some value else map.get? other := by
  obtain ⟨entries, increasing⟩ := map
  simp only [get?, insert]
  clear increasing
  induction entries with
  | nil => simp [insertInto, find?]
  | cons first rest ih =>
    simp only [insertInto]
    split
    · simp [find?]
    · split
      · grind [find?]
      · grind [find?]

end PathMap

end Families
