/-!
# Sets of positions

A finite set of natural numbers, kept as its members in increasing order.
-/

namespace Families

/-- A finite set of natural numbers. -/
structure Positions where
  /-- The members. -/
  toList : List Nat
  /-- The members increase, so that no member is listed twice. -/
  increasing : toList.Pairwise (· < ·)
deriving DecidableEq

namespace Positions

/-- Enters a number into increasing numbers. -/
def insertInto (number : Nat) : List Nat → List Nat
  | [] => [number]
  | first :: rest =>
    if number < first then
      number :: first :: rest
    else if number = first then
      first :: rest
    else
      first :: insertInto number rest

/-- The new number and the old ones are the members after an insertion. -/
@[simp]
theorem mem_insertInto {member number : Nat} {numbers : List Nat} :
    member ∈ insertInto number numbers ↔ member = number ∨ member ∈ numbers := by
  induction numbers with
  | nil => simp [insertInto]
  | cons first rest ih =>
    simp only [insertInto]
    split
    · simp
    · split
      · simp_all
      · simp only [List.mem_cons, ih]
        grind

/-- Insertion keeps the members increasing. -/
theorem insertInto_increasing
    {number : Nat}
    {numbers : List Nat}
    (increasing : numbers.Pairwise (· < ·)) :
    (insertInto number numbers).Pairwise (· < ·) := by
  induction increasing with
  | nil => simp [insertInto]
  | @cons first rest smaller restIncreasing ih =>
    have whole := List.Pairwise.cons smaller restIncreasing
    simp only [insertInto]
    split
    · refine List.Pairwise.cons (fun member found => ?_) whole
      rcases List.mem_cons.1 found with rfl | old
      · assumption
      · exact Nat.lt_trans (by assumption) (smaller member old)
    · split
      · exact whole
      · refine List.Pairwise.cons (fun member found => ?_) ih
        rcases mem_insertInto.1 found with rfl | old
        · omega
        · exact smaller member old

instance : Membership Nat Positions where
  mem positions number := number ∈ positions.toList

instance (number : Nat) (positions : Positions) : Decidable (number ∈ positions) :=
  inferInstanceAs (Decidable (number ∈ positions.toList))

/-- The set without members. -/
def empty : Positions where
  toList := []
  increasing := List.Pairwise.nil

/-- The set with one more member. -/
def insert (positions : Positions) (number : Nat) : Positions where
  toList := insertInto number positions.toList
  increasing := insertInto_increasing positions.increasing

/-- The set of the numbers of a list. -/
def ofList (numbers : List Nat) : Positions :=
  numbers.foldl insert empty

/-- Insertion adds exactly one number. -/
@[simp]
theorem mem_insert {positions : Positions} {member number : Nat} :
    member ∈ positions.insert number ↔ member = number ∨ member ∈ positions :=
  mem_insertInto

end Positions

end Families
