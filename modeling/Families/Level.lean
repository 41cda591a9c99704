import Families.Bounds
import Families.Phrase.Occurrence
import Families.Phrase.Order

/-!
# Universe levels

A level is the least upper bound of a constant and of atoms, which are terms raised by offsets.
In canonical form the atoms increase, no two share a term, and a constant that some atom dominates
is zero.
-/

namespace Families

/-- A term of type level, raised by an offset. -/
structure Atom where
  /-- The raised term. -/
  term : Term
  /-- What is added to it. -/
  offset : Nat
deriving DecidableEq

namespace Phrase

/-- The atoms of a sequence, as a list.  Phrases of other categories list none. -/
def atomList : {category : Category} → Phrase category → List Atom
  | _, atom term offset rest => ⟨term, offset⟩ :: rest.atomList
  | _, _ => []

/-- A list of atoms as a sequence. -/
def ofAtoms : List Atom → Phrase .atoms
  | [] => noAtoms
  | first :: rest => atom first.term first.offset (ofAtoms rest)

@[simp]
theorem atomList_noAtoms : atomList noAtoms = [] := rfl

@[simp]
theorem atomList_atom (term : Term) (offset : Nat) (rest : Phrase .atoms) :
    atomList (atom term offset rest) = ⟨term, offset⟩ :: rest.atomList := rfl

@[simp]
theorem atomList_ofAtoms : ∀ list : List Atom, (ofAtoms list).atomList = list
  | [] => rfl
  | first :: rest => congrArg (first :: ·) (atomList_ofAtoms rest)

@[simp]
theorem ofAtoms_atomList : ∀ sequence : Phrase .atoms, ofAtoms sequence.atomList = sequence
  | noAtoms => rfl
  | atom term offset rest => congrArg (atom term offset) (ofAtoms_atomList rest)

end Phrase

namespace Level

/-- The constant of a level. -/
def constant : Level → Nat
  | .lub constant _ => constant

/-- The atoms of a level. -/
def atoms : Level → List Atom
  | .lub _ atoms => atoms.atomList

/-- The level with the given constant and atoms. -/
def ofParts (constant : Nat) (atoms : List Atom) : Level :=
  .lub constant (.ofAtoms atoms)

/-- The level of a number. -/
def ofNat (number : Nat) : Level :=
  ofParts number []

/-- The level that a term stands for. -/
def ofTerm : Term → Level
  | .level level => level
  | term => ofParts 0 [⟨term, 0⟩]

/-- Enters an atom into increasing atoms, keeping the larger offset of two with the same term. -/
def insertAtom (atom : Atom) : List Atom → List Atom
  | [] => [atom]
  | first :: rest =>
    match compare atom.term first.term with
    | .lt => atom :: first :: rest
    | .eq => ⟨first.term, max atom.offset first.offset⟩ :: rest
    | .gt => first :: insertAtom atom rest

/-- The level with the given parts, in canonical form. -/
def canonical (constant : Nat) (atoms : List Atom) : Level :=
  let atoms := atoms.foldr insertAtom []
  ofParts (if atoms.any (constant ≤ ·.offset) then 0 else constant) atoms

/-- The canonical form of a level. -/
def canonicalise (level : Level) : Level :=
  canonical (constant level) (atoms level)

/-- Adds a number to an atom. -/
def raiseAtom? (by_ : Nat) (atom : Atom) : Option Atom := do
  let offset ← word? (atom.offset + by_)
  pure ⟨atom.term, offset⟩

/-- Adds a number to every part of a level.  A constant of zero beside atoms counts as absent. -/
def raise? (level : Level) (by_ : Nat) : Option Level := do
  let constant ←
    if (atoms level).isEmpty ∨ 0 < constant level then
      word? (constant level + by_)
    else
      pure 0
  let atoms ← (atoms level).mapM (raiseAtom? by_)
  pure (canonical constant atoms)

/-- The next level. -/
def succ? (level : Level) : Option Level :=
  raise? level 1

/-- The least upper bound of two levels. -/
def join (left right : Level) : Level :=
  canonical (max (constant left) (constant right)) (atoms left ++ atoms right)

/-- The number that a level without atoms stands for. -/
def asNat? (level : Level) : Option Nat :=
  match atoms level with
  | [] => some (constant level)
  | _ :: _ => none

/-- The placeholder that a level consists of, with its arguments. -/
def asPlaceholder? (level : Level) : Option (Nat × Phrase .terms) :=
  match constant level, atoms level with
  | 0, [⟨.placeholder id arguments, 0⟩] => some (id, arguments)
  | _, _ => none

/-- The left level is at most the right one whatever their terms stand for, judged part by part. -/
def below (left right : Level) : Bool :=
  (constant left ≤ constant right || (atoms right).any (constant left ≤ ·.offset)) &&
    (atoms left).all fun atom =>
      (atoms right).any fun bound => bound.term == atom.term && atom.offset ≤ bound.offset

end Level

end Families
