import Families.Level
import Families.Proofs.Outcome

/-!
# The values of levels

A level stands for a number once its terms do.  Every operation on levels is described by what it
does to this number and to the terms that the level mentions.  The main statement says that
levels in canonical form are equal as soon as they always stand for the same number.
-/

namespace Families

variable {term : Term} {left right : Level} {value : Term → Nat} {category : Category}
variable {phrase : Phrase category}

/-! ## The order of phrases is lawful -/

namespace Phrase

variable {category : Category}

instance : Std.TransOrd (Phrase category) where
  eq_swap {left right} := Std.OrientedOrd.eq_swap (a := left.key) (b := right.key)
  isLE_trans {first second third} :=
    Std.TransOrd.isLE_trans (a := first.key) (b := second.key) (c := third.key)

instance : Std.LawfulEqOrd (Phrase category) where
  compare_self {phrase} := Std.ReflOrd.compare_self (a := phrase.key)
  eq_of_compare {left right} same :=
    key_injective (Std.LawfulEqOrd.eq_of_compare (a := left.key) (b := right.key) same)

end Phrase

namespace Level

/-! ## Values -/

/-- The number that a level stands for when each term of its atoms stands for a number. -/
def eval (value : Term → Nat) (level : Level) : Nat :=
  (atoms level).foldr (fun atom bound => max (value atom.term + atom.offset) bound)
    (constant level)

/-- The terms of the atoms of a level. -/
def terms (level : Level) : List Term :=
  (atoms level).map Atom.term

@[simp]
theorem constant_ofParts (constant : Nat) (atoms : List Atom) :
    Level.constant (ofParts constant atoms) = constant := rfl

@[simp]
theorem atoms_ofParts (constant : Nat) (atoms : List Atom) :
    Level.atoms (ofParts constant atoms) = atoms := by
  simp [Level.atoms, ofParts]

/-- A level is determined by its constant and its atoms. -/
theorem ext (constants : constant left = constant right)
    (atoms : atoms left = atoms right) : left = right := by
  cases left with
  | lub leftConstant leftAtoms =>
    cases right with
    | lub rightConstant rightAtoms =>
      have sequences := congrArg Phrase.ofAtoms atoms
      simp only [Level.atoms, Phrase.ofAtoms_atomList] at sequences
      rw [sequences, show leftConstant = rightConstant from constants]

/-- A level is at most a number exactly when all its parts are. -/
theorem eval_le_iff {level : Level} {bound : Nat} :
    eval value level ≤ bound ↔
      constant level ≤ bound ∧ ∀ atom ∈ atoms level, value atom.term + atom.offset ≤ bound := by
  simp only [eval]
  induction atoms level with
  | nil => simp
  | cons first rest ih =>
    simp only [List.foldr_cons, Nat.max_le, ih, List.forall_mem_cons]
    tauto

/-- A number is a level's value once both have the same upper bounds. -/
theorem eval_eq_of_le_iff {level : Level} {number : Nat}
    (bounds : ∀ bound, constant level ≤ bound ∧
      (∀ atom ∈ atoms level, value atom.term + atom.offset ≤ bound) ↔ number ≤ bound) :
    eval value level = number := by
  apply eq_of_forall_ge_iff
  intro bound
  rw [eval_le_iff, bounds]

/-- The value of a level depends on its own terms only. -/
theorem eval_congr {left right : Term → Nat} {level : Level}
    (same : ∀ term ∈ terms level, left term = right term) : eval left level = eval right level := by
  apply eval_eq_of_le_iff
  intro bound
  rw [eval_le_iff]
  refine and_congr_right fun _ => forall₂_congr fun atom present => ?_
  rw [same atom.term (List.mem_map_of_mem present)]

@[simp]
theorem eval_ofNat (value : Term → Nat) (number : Nat) : eval value (ofNat number) = number := by
  simp [eval, ofNat]

/-! ## Canonical forms -/

/-- The atoms increase by their terms. -/
def Increasing (atoms : List Atom) : Prop :=
  atoms.Pairwise fun left right => compare left.term right.term = .lt

/-- The atoms increase, and the constant is zero or above all offsets. -/
def Canonical (level : Level) : Prop :=
  Increasing (atoms level) ∧
    (constant level = 0 ∨ ∀ atom ∈ atoms level, atom.offset < constant level)

/-- Entering an atom adds its term. -/
@[simp]
theorem mem_map_insertAtom {atom : Atom} {atoms : List Atom} :
    term ∈ (insertAtom atom atoms).map Atom.term ↔
      term = atom.term ∨ term ∈ atoms.map Atom.term := by
  induction atoms with
  | nil => simp [insertAtom]
  | cons first rest ih =>
    simp only [insertAtom]
    split
    · simp
    · rename_i same
      have sameTerm := Std.LawfulEqOrd.eq_of_compare same
      simp [sameTerm]
    · simp only [List.map_cons, List.mem_cons, ih]
      tauto

/-- Entering an atom bounds the values by that of the atom too. -/
theorem forall_insertAtom_le {atom : Atom} {atoms : List Atom} {bound : Nat} :
    (∀ other ∈ insertAtom atom atoms, value other.term + other.offset ≤ bound) ↔
      value atom.term + atom.offset ≤ bound ∧
        ∀ other ∈ atoms, value other.term + other.offset ≤ bound := by
  induction atoms with
  | nil => simp [insertAtom]
  | cons first rest ih =>
    simp only [insertAtom]
    split
    · simp
    · rename_i same
      have sameTerm := Std.LawfulEqOrd.eq_of_compare same
      simp only [List.forall_mem_cons, sameTerm, ← Nat.add_max_add_left, Nat.max_le, and_assoc]
    · simp only [List.forall_mem_cons, ih]
      tauto

/-- Entering an atom keeps atoms increasing. -/
theorem Increasing.insertAtom {atom : Atom} {atoms : List Atom} (increasing : Increasing atoms) :
    Increasing (insertAtom atom atoms) := by
  induction increasing with
  | nil => simp [Level.insertAtom, Increasing]
  | @cons first rest above restIncreasing ih =>
    have whole : Increasing (first :: rest) := List.Pairwise.cons above restIncreasing
    simp only [Level.insertAtom]
    split
    · rename_i smaller
      refine List.Pairwise.cons (fun other present => ?_) whole
      rcases List.mem_cons.1 present with rfl | later
      · exact smaller
      · exact Std.TransCmp.lt_trans smaller (above other later)
    · exact List.Pairwise.cons above restIncreasing
    · rename_i larger
      refine List.Pairwise.cons (fun other present => ?_) ih
      have otherTerm : other.term ∈ (Level.insertAtom atom rest).map Atom.term :=
        List.mem_map_of_mem present
      rcases mem_map_insertAtom.1 otherTerm with same | later
      · rw [same]
        exact Std.OrientedCmp.lt_of_gt larger
      · obtain ⟨old, oldPresent, sameTerm⟩ := List.mem_map.1 later
        rw [← sameTerm]
        exact above old oldPresent

/-- The canonical form mentions the given terms. -/
@[simp]
theorem mem_terms_canonical {constant : Nat} {atoms : List Atom} :
    term ∈ terms (canonical constant atoms) ↔ term ∈ atoms.map Atom.term := by
  simp only [terms, canonical, atoms_ofParts]
  induction atoms with
  | nil => simp
  | cons first rest ih => simp [ih]

/-- The canonical form is canonical. -/
theorem canonical_canonical (constant : Nat) (atoms : List Atom) :
    Canonical (canonical constant atoms) := by
  constructor
  · simp only [canonical, atoms_ofParts]
    induction atoms with
    | nil => exact List.Pairwise.nil
    | cons first rest ih => exact ih.insertAtom
  · simp only [canonical, constant_ofParts, atoms_ofParts]
    split
    · exact .inl rfl
    · rename_i dominated
      right
      intro atom present
      by_contra notBelow
      exact dominated (List.any_eq_true.2 ⟨atom, present, by simpa using notBelow⟩)

/-- The canonical form has the value of its parts. -/
theorem eval_canonical_le_iff {constant bound : Nat} {atoms : List Atom} :
    eval value (canonical constant atoms) ≤ bound ↔
      constant ≤ bound ∧ ∀ atom ∈ atoms, value atom.term + atom.offset ≤ bound := by
  have entered : (∀ atom ∈ atoms.foldr insertAtom [], value atom.term + atom.offset ≤ bound) ↔
      ∀ atom ∈ atoms, value atom.term + atom.offset ≤ bound := by
    induction atoms with
    | nil => simp
    | cons first rest ih =>
      rw [List.foldr_cons, forall_insertAtom_le, ih, List.forall_mem_cons]
  rw [eval_le_iff]
  simp only [canonical, constant_ofParts, atoms_ofParts, entered]
  split
  · rename_i dominated
    -- The constant that was dropped is below some atom, whatever the atom's term stands for.
    obtain ⟨atom, present, below⟩ := List.any_eq_true.1 dominated
    have constantBelow : constant ≤ atom.offset := by simpa using below
    simp only [Nat.zero_le, true_and]
    refine ⟨fun all => ⟨?_, all⟩, And.right⟩
    have atomBelow := entered.2 all atom present
    omega
  · rfl

/-- The least upper bound stands for the larger number. -/
@[simp]
theorem eval_join (value : Term → Nat) (left right : Level) :
    eval value (join left right) = max (eval value left) (eval value right) := by
  apply eq_of_forall_ge_iff
  intro bound
  rw [join, eval_canonical_le_iff, Nat.max_le, Nat.max_le, eval_le_iff, eval_le_iff,
    List.forall_mem_append]
  tauto

@[simp]
theorem mem_terms_join :
    term ∈ terms (join left right) ↔ term ∈ terms left ∨ term ∈ terms right := by
  rw [join, mem_terms_canonical, List.map_append, List.mem_append, terms, terms]

/-! ## Raising a level -/

/-- The level with a number added to every part, where no number is too large. -/
def raise (level : Level) (by_ : Nat) : Level :=
  canonical
    (if (atoms level).isEmpty ∨ 0 < constant level then constant level + by_ else 0)
    ((atoms level).map fun atom => ⟨atom.term, atom.offset + by_⟩)

/-- Raising a level adds to its value. -/
@[simp]
theorem eval_raise (value : Term → Nat) (level : Level) (by_ : Nat) :
    eval value (raise level by_) = eval value level + by_ := by
  apply eq_of_forall_ge_iff
  intro bound
  have shifted : eval value level + by_ ≤ bound ↔ by_ ≤ bound ∧ eval value level ≤ bound - by_ := by
    omega
  rw [raise, eval_canonical_le_iff, List.forall_mem_map, shifted, eval_le_iff]
  split
  · grind
  · rename_i absent
    simp only [not_or, List.isEmpty_iff, Nat.not_lt, Nat.le_zero] at absent
    obtain ⟨atom, present⟩ := List.exists_mem_of_ne_nil _ absent.1
    grind

/-- Raising a level keeps its terms. -/
@[simp]
theorem mem_terms_raise {level : Level} {by_ : Nat} :
    term ∈ terms (raise level by_) ↔ term ∈ terms level := by
  rw [raise, mem_terms_canonical]
  simp [terms]

/-- A level that could be raised is the raised level. -/
theorem eq_raise_of_raise? {level raised : Level} {by_ : Nat}
    (succeeded : raise? level by_ = some raised) : raised = raise level by_ := by
  have atomsRaised : ∀ {atoms raisedAtoms : List Atom},
      atoms.mapM (raiseAtom? by_) = some raisedAtoms →
        raisedAtoms = atoms.map fun atom => ⟨atom.term, atom.offset + by_⟩ := by
    intro atoms
    induction atoms with
    | nil => simp
    | cons first rest ih =>
      intro raisedAtoms succeeded
      simp only [List.mapM_cons, raiseAtom?, Option.bind_eq_bind, Option.bind_eq_some_iff,
        word?_eq_some_iff, Option.pure_def, Option.some.injEq] at succeeded
      obtain ⟨_, ⟨_, ⟨_, rfl⟩, rfl⟩, _, restRaised, rfl⟩ := succeeded
      rw [List.map_cons, ← ih restRaised]
  simp only [raise?, Option.bind_eq_bind, Option.pure_def] at succeeded
  split at succeeded
  · rename_i present
    simp only [Option.bind_eq_some_iff, word?_eq_some_iff, Option.some.injEq] at succeeded
    obtain ⟨_, ⟨_, rfl⟩, _, newAtomsRaised, rfl⟩ := succeeded
    rw [atomsRaised newAtomsRaised, raise, if_pos present]
  · rename_i absent
    simp only [Option.bind_some, Option.bind_eq_some_iff, Option.some.injEq] at succeeded
    obtain ⟨_, newAtomsRaised, rfl⟩ := succeeded
    rw [atomsRaised newAtomsRaised, raise, if_neg absent]

/-! ## Uniqueness of canonical forms -/

/-- In increasing atoms a term has one offset. -/
theorem Increasing.eq_of_term_eq {atoms : List Atom} {left right : Atom}
    (increasing : Increasing atoms) (leftPresent : left ∈ atoms) (rightPresent : right ∈ atoms)
    (sameTerm : left.term = right.term) : left = right := by
  have apart : ∀ {first second : Atom}, compare first.term second.term = .lt →
      first.term ≠ second.term := by
    intro first second below equal
    rw [equal, Std.ReflOrd.compare_self] at below
    exact absurd below (by simp)
  have unique : ∀ first ∈ atoms, ∀ second ∈ atoms, first.term = second.term → first = second := by
    apply List.Pairwise.forall_of_forall_of_flip
    · exact fun _ _ _ => rfl
    · exact List.Pairwise.imp (fun below equal => absurd equal (apart below)) increasing
    · exact List.Pairwise.imp (fun below equal => absurd equal.symm (apart below)) increasing
  exact unique left leftPresent right rightPresent sameTerm

/-- Increasing atoms with the same members are the same. -/
theorem Increasing.eq_of_mem_iff {left right : List Atom} (leftIncreasing : Increasing left)
    (rightIncreasing : Increasing right) (same : ∀ atom, atom ∈ left ↔ atom ∈ right) :
    left = right := by
  have irreflexive : ∀ {atom : Atom}, compare atom.term atom.term ≠ .lt := by
    intro atom
    rw [Std.ReflOrd.compare_self]
    simp
  have nodup : ∀ {atoms : List Atom}, Increasing atoms → atoms.Nodup := by
    intro atoms increasing
    refine List.Pairwise.imp ?_ increasing
    rintro first second below rfl
    exact irreflexive below
  refine ((List.perm_ext_iff_of_nodup (nodup leftIncreasing) (nodup rightIncreasing)).2
    same).eq_of_pairwise ?_
    leftIncreasing rightIncreasing
  intro first second _ _ below above
  exact absurd (Std.TransCmp.lt_trans below above) irreflexive

/-- A bound of the constant and of the offsets of a level. -/
def offsetBound (level : Level) : Nat :=
  eval (fun _ => 0) level

/-- Values that single out one term: it stands for a large number and the others for zero. -/
def spike (term : Term) (height : Nat) (other : Term) : Nat :=
  if other = term then height else 0

/-- The value of a level whose atoms include one at a spike that rises above the other parts. -/
theorem eval_spike_of_mem {level : Level} {atom : Atom} {height : Nat} (canonical : Canonical level)
    (present : atom ∈ atoms level) (high : offsetBound level ≤ height) :
    eval (spike atom.term height) level = height + atom.offset := by
  obtain ⟨constantBound, offsetBounds⟩ := eval_le_iff.1 high
  apply le_antisymm
  · refine eval_le_iff.2 ⟨by omega, fun other otherPresent => ?_⟩
    by_cases sameTerm : other.term = atom.term
    · rw [canonical.1.eq_of_term_eq otherPresent present sameTerm]
      simp [spike]
    · have := offsetBounds other otherPresent
      simp only [spike, if_neg sameTerm]
      omega
  · have bounded := (eval_le_iff.1 (Nat.le_refl (eval (spike atom.term height) level))).2 atom
      present
    simpa [spike] using bounded

/-- The value of a level that does not mention the term at a spike. -/
theorem eval_spike_of_not_mem {level : Level} {height : Nat}
    (absent : term ∉ terms level) : eval (spike term height) level = offsetBound level := by
  apply eval_congr
  intro other present
  have different : other ≠ term := by
    rintro rfl
    exact absent present
  exact if_neg different

/-- An atom of a level in canonical form is one of every level in canonical form with the same
values. -/
theorem Canonical.mem_atoms {atom : Atom} (leftCanonical : Canonical left)
    (rightCanonical : Canonical right) (same : ∀ value, eval value left = eval value right)
    (present : atom ∈ atoms left) : atom ∈ atoms right := by
  -- The bound of both sides plus one makes the spike visible in the value.
  have bounds : offsetBound left = offsetBound right := same _
  have leftValue := eval_spike_of_mem leftCanonical present (Nat.le_succ (offsetBound left))
  rw [same] at leftValue
  by_cases mentioned : atom.term ∈ terms right
  · obtain ⟨other, otherPresent, sameTerm⟩ := List.mem_map.1 mentioned
    have rightValue := eval_spike_of_mem rightCanonical otherPresent
      (Nat.le_succ (offsetBound right))
    rw [sameTerm, ← bounds, leftValue] at rightValue
    have sameAtom : atom = other := by
      cases atom
      cases other
      simp_all
    exact sameAtom ▸ otherPresent
  · rw [eval_spike_of_not_mem mentioned] at leftValue
    omega

/-- The constant of a level in canonical form is at most that of every level with the same atoms and
values. -/
theorem Canonical.constant_le (leftCanonical : Canonical left)
    (sameAtoms : atoms left = atoms right) (same : ∀ value, eval value left = eval value right) :
    constant left ≤ constant right := by
  rcases leftCanonical.2 with zero | above
  · omega
  · -- The offsets are too small to make up for a smaller constant on the right.
    have rightBounded : eval (fun _ => 0) right ≤ max (constant right) (constant left - 1) := by
      refine eval_le_iff.2 ⟨Nat.le_max_left _ _, fun atom present => ?_⟩
      have := above atom (sameAtoms ▸ present)
      omega
    have leftBounded := (eval_le_iff.1 (Nat.le_refl (eval (fun _ => 0) left))).1
    rw [same] at leftBounded
    by_contra smaller
    have positive : 0 < constant left := by omega
    omega

/-- Levels in canonical form with the same values are equal. -/
theorem Canonical.eq_of_eval_eq (leftCanonical : Canonical left)
    (rightCanonical : Canonical right) (same : ∀ value, eval value left = eval value right) :
    left = right := by
  have sameAtoms : atoms left = atoms right :=
    leftCanonical.1.eq_of_mem_iff rightCanonical.1 fun atom =>
      ⟨leftCanonical.mem_atoms rightCanonical same,
        rightCanonical.mem_atoms leftCanonical fun value => (same value).symm⟩
  have sameConstants : constant left = constant right :=
    le_antisymm (leftCanonical.constant_le sameAtoms same)
      (rightCanonical.constant_le sameAtoms.symm fun value => (same value).symm)
  exact ext sameConstants sameAtoms

end Level

/-! ## Levels within levels -/

namespace Phrase

variable {category : Category}

/-- Atoms with their terms replaced.  Phrases of other categories stay. -/
def mapAtoms (change : Term → Term) : {category : Category} → Phrase category → Phrase category
  | _, atom term offset rest => atom (change term) offset (rest.mapAtoms change)
  | _, phrase => phrase

@[simp]
theorem atomList_mapAtoms (change : Term → Term) :
    ∀ atoms : Phrase .atoms, (atoms.mapAtoms change).atomList =
      atoms.atomList.map fun atom => ⟨change atom.term, atom.offset⟩
  | noAtoms => rfl
  | atom term offset rest => congrArg (_ :: ·) (atomList_mapAtoms change rest)

/-- The number that a phrase stands for when the terms that are no levels stand for numbers.  A
level among the terms of a level counts as what it stands for itself. -/
def deepEval (value : Term → Nat) : {category : Category} → Phrase category → Nat
  | _, level bound => bound.deepEval value
  | _, lub constant atoms => max constant (atoms.deepEval value)
  | _, atom term offset rest => max (term.deepEval value + offset) (rest.deepEval value)
  | .term, term => value term
  | _, _ => 0

/-- The terms that are no levels among the terms of a level, or of a level among these. -/
def leaves : {category : Category} → Phrase category → List Term
  | _, level bound => bound.leaves
  | _, lub _ atoms => atoms.leaves
  | _, atom term _ rest => term.leaves ++ rest.leaves
  | .term, term => [term]
  | _, _ => []

/-- The phrase is a level, used as a term. -/
def IsLevel : {category : Category} → Phrase category → Prop
  | _, level _ => True
  | _, _ => False

theorem deepEval_of_not_isLevel (noLevel : ¬term.IsLevel) : term.deepEval value = value term := by
  cases term <;> first | rfl | exact absurd trivial noLevel

theorem leaves_of_not_isLevel (noLevel : ¬term.IsLevel) : term.leaves = [term] := by
  cases term <;> first | rfl | exact absurd trivial noLevel

theorem not_isLevel_of_mem_leaves {leaf : Term}
    (present : leaf ∈ phrase.leaves) : ¬leaf.IsLevel := by
  induction phrase with
  | level bound ih => exact ih present
  | lub constant atoms ih => exact ih present
  | atom term offset rest ihTerm ihRest =>
    exact (List.mem_append.1 present).elim ihTerm ihRest
  | _ => simp_all [leaves, IsLevel]

theorem mem_leaves_iff_atomList {leaf : Term} :
    ∀ atoms : Phrase .atoms,
      leaf ∈ atoms.leaves ↔ ∃ atom ∈ atoms.atomList, leaf ∈ atom.term.leaves
  | noAtoms => by simp [leaves]
  | atom term offset rest => by simp [leaves, mem_leaves_iff_atomList rest]

/-- The value depends on the leaves only. -/
theorem deepEval_congr {left right : Term → Nat}
    (same : ∀ leaf ∈ phrase.leaves, left leaf = right leaf) :
    phrase.deepEval left = phrase.deepEval right := by
  induction phrase with
  | level bound ih => exact ih same
  | lub constant atoms ih => exact congrArg (max constant) (ih same)
  | atom term offset rest ihTerm ihRest =>
    have termsSame := ihTerm fun leaf present => same leaf (by simp [leaves, present])
    have restsSame := ihRest fun leaf present => same leaf (by simp [leaves, present])
    simp only [deepEval, termsSame, restsSame]
  | _ => simp_all [leaves, deepEval]

/-- Atoms are at most a number exactly when each of them is. -/
theorem deepEval_atoms_le_iff {bound : Nat} :
    ∀ atoms : Phrase .atoms, atoms.deepEval value ≤ bound ↔
      ∀ atom ∈ atoms.atomList, atom.term.deepEval value + atom.offset ≤ bound
  | noAtoms => by simp [deepEval]
  | atom term offset rest => by simp [deepEval, deepEval_atoms_le_iff rest]

end Phrase

namespace Level

/-- A level stands for what its parts stand for. -/
theorem deepEval_eq_eval (value : Term → Nat) :
    ∀ level : Level, level.deepEval value = eval (Phrase.deepEval value) level
  | .lub constant atoms => by
    apply eq_of_forall_ge_iff
    intro bound
    rw [eval_le_iff, Phrase.deepEval, Nat.max_le, Phrase.deepEval_atoms_le_iff]
    rfl

/-- No term of the level is a level. -/
def Flat (level : Level) : Prop :=
  ∀ term ∈ terms level, ¬term.IsLevel

theorem mem_leaves {level : Level} {leaf : Term} :
    leaf ∈ level.leaves ↔ ∃ term ∈ terms level, leaf ∈ term.leaves := by
  cases level with
  | lub constant atoms => simp [Phrase.leaves, Phrase.mem_leaves_iff_atomList, terms, Level.atoms]

theorem Flat.mem_leaves {level : Level} {leaf : Term} (flat : Flat level) :
    leaf ∈ level.leaves ↔ leaf ∈ terms level := by
  rw [Level.mem_leaves]
  constructor
  · rintro ⟨term, present, isLeaf⟩
    rw [Phrase.leaves_of_not_isLevel (flat term present), List.mem_singleton] at isLeaf
    exact isLeaf ▸ present
  · intro present
    exact ⟨leaf, present, by simp [Phrase.leaves_of_not_isLevel (flat leaf present)]⟩

theorem Flat.deepEval {level : Level} (flat : Flat level) (value : Term → Nat) :
    level.deepEval value = eval value level := by
  rw [deepEval_eq_eval]
  exact eval_congr fun term present => Phrase.deepEval_of_not_isLevel (flat term present)

/-- Flat levels in canonical form with the same values are equal. -/
theorem Canonical.eq_of_deepEval_eq (leftCanonical : Canonical left)
    (rightCanonical : Canonical right) (leftFlat : Flat left) (rightFlat : Flat right)
    (same : ∀ value, left.deepEval value = right.deepEval value) : left = right := by
  refine leftCanonical.eq_of_eval_eq rightCanonical fun value => ?_
  rw [← leftFlat.deepEval, ← rightFlat.deepEval, same]

/-- The level has the value of a phrase and no other terms than its leaves. -/
structure Flattens {category : Category} (phrase : Phrase category) (level : Level) : Prop where
  value : ∀ value, level.deepEval value = phrase.deepEval value
  terms : ∀ term, term ∈ terms level ↔ term ∈ phrase.leaves

theorem Flattens.flat {level : Level}
    (flattens : Flattens phrase level) : Flat level := by
  intro term present
  exact Phrase.not_isLevel_of_mem_leaves ((flattens.terms term).1 present)

/-- A term of a flattened level is a leaf of one of the atoms. -/
theorem Flattens.exists_leaf {constant : Nat} {atoms : Phrase .atoms} {heads : Term → Term}
    {level : Level} (flattens : Flattens (Phrase.lub constant (atoms.mapAtoms heads)) level)
    (present : term ∈ Level.terms level) :
    ∃ source ∈ atoms.atomList, term ∈ (heads source.term).leaves := by
  obtain ⟨atom, atomPresent, isLeaf⟩ :=
    (Phrase.mem_leaves_iff_atomList _).1 ((flattens.terms term).1 present)
  rw [Phrase.atomList_mapAtoms] at atomPresent
  obtain ⟨source, sourcePresent, rfl⟩ := List.mem_map.1 atomPresent
  exact ⟨source, sourcePresent, isLeaf⟩

/-- The level has the value and the leaves of a phrase.  Its terms may be levels. -/
structure Regroups {category : Category} (phrase : Phrase category) (level : Level) : Prop where
  value : ∀ value, level.deepEval value = phrase.deepEval value
  leaves : ∀ leaf, leaf ∈ level.leaves ↔ leaf ∈ phrase.leaves

theorem Flattens.regroups {level : Level} (flattens : Flattens phrase level) :
    Regroups phrase level where
  value := flattens.value
  leaves leaf := by rw [flattens.flat.mem_leaves, flattens.terms]

theorem Flattens.leaf (noLevel : ¬term.IsLevel) :
    Flattens term (ofParts 0 [⟨term, 0⟩]) where
  value value := by simp [deepEval_eq_eval, eval]
  terms := by simp [Level.terms, Phrase.leaves_of_not_isLevel noLevel]

theorem Flattens.lub {constant : Nat} {atoms : Phrase .atoms} {level : Level}
    (flattens : Flattens atoms level) :
    Flattens (Phrase.lub constant atoms) (join (ofNat constant) level) where
  value value := by
    rw [deepEval_eq_eval, eval_join, eval_ofNat, ← deepEval_eq_eval, flattens.value]
    rfl
  terms term := by
    rw [mem_terms_join, flattens.terms]
    simp [ofNat, Level.terms, Phrase.leaves]

theorem Flattens.atom {offset : Nat} {rest : Phrase .atoms} {first others : Level}
    (flattensTerm : Flattens term first) (flattensRest : Flattens rest others) :
    Flattens (Phrase.atom term offset rest) (join (raise first offset) others) where
  value value := by
    rw [deepEval_eq_eval, eval_join, eval_raise, ← deepEval_eq_eval, ← deepEval_eq_eval,
      flattensTerm.value, flattensRest.value]
    rfl
  terms other := by
    rw [mem_terms_join, mem_terms_raise, flattensTerm.terms, flattensRest.terms]
    simp [Phrase.leaves]

/-- The canonical form of the parts of a level flattens it, if its terms are no levels. -/
theorem Flattens.canonical {constant : Nat} {atoms : Phrase .atoms}
    (flat : ∀ atom ∈ atoms.atomList, ¬atom.term.IsLevel) :
    Flattens (Phrase.lub constant atoms) (Level.canonical constant atoms.atomList) where
  value value := by
    apply eq_of_forall_ge_iff
    intro bound
    rw [deepEval_eq_eval, eval_canonical_le_iff, Phrase.deepEval, Nat.max_le,
      Phrase.deepEval_atoms_le_iff]
  terms term := by
    rw [mem_terms_canonical, Phrase.leaves, Phrase.mem_leaves_iff_atomList, List.mem_map]
    refine exists_congr fun atom => and_congr_right fun present => ?_
    rw [Phrase.leaves_of_not_isLevel (flat atom present), List.mem_singleton, eq_comm]

/-- Every phrase has the value of a flat level in canonical form. -/
theorem exists_flattens (phrase : Phrase category) :
    ∃ level, Canonical level ∧ Flattens phrase level := by
  induction phrase with
  | level bound ih =>
    obtain ⟨level, canonical, value, terms⟩ := ih
    exact ⟨level, canonical, value, terms⟩
  | lub constant atoms ih =>
    obtain ⟨level, _, flattens⟩ := ih
    exact ⟨_, canonical_canonical _ _, flattens.lub⟩
  | atom term offset rest ihTerm ihRest =>
    obtain ⟨first, _, flattensTerm⟩ := ihTerm
    obtain ⟨others, _, flattensRest⟩ := ihRest
    exact ⟨_, canonical_canonical _ _, flattensTerm.atom flattensRest⟩
  | var | const | app | pi | univ | placeholder =>
    refine ⟨_, ?_, Flattens.leaf (by simp [Phrase.IsLevel])⟩
    simp [Canonical, Increasing]
  | _ =>
    refine ⟨ofNat 0, by simp [Canonical, Increasing, ofNat], ?_, ?_⟩
    · simp [deepEval_eq_eval, Phrase.deepEval]
    · simp [Phrase.leaves, Level.terms, ofNat]

end Level

end Families
