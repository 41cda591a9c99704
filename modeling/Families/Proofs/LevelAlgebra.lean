import Families.Proofs.Levels

/-!
# The algebra of levels

Levels compute with maxima and sums, and canonical forms are unique.  So every law of these numbers
holds of levels in canonical form as an equation.  The order that is judged part by part is the
order of the numbers, whatever the terms stand for.
-/

namespace Families.Level

variable {value : Term → Nat} {left right level : Level} {by_ : Nat}

/-! ## Raising -/

/-- A level can be raised exactly when all its parts stay within the words. -/
theorem isSome_raise?_iff : (raise? level by_).isSome ↔ offsetBound level + by_ < wordLimit := by
  have atomsRaised : ∀ list : List Atom, (list.mapM (raiseAtom? by_)).isSome ↔
      ∀ atom ∈ list, atom.offset + by_ < wordLimit := by
    intro list
    induction list with
    | nil => simp
    | cons first rest ih =>
      rw [List.mapM_cons, List.forall_mem_cons, ← ih]
      by_cases isWord : first.offset + by_ < wordLimit <;>
        cases rest.mapM (raiseAtom? by_) <;> simp [raiseAtom?, word?, isWord]
  have bounded : offsetBound level + by_ < wordLimit ↔
      (if (atoms level).isEmpty ∨ 0 < constant level then constant level + by_ else 0) < wordLimit ∧
        ∀ atom ∈ atoms level, atom.offset + by_ < wordLimit := by
    have positive : 0 < wordLimit := by decide
    rw [offsetBound, ← eval_raise, Nat.lt_iff_le_pred positive, raise, eval_canonical_le_iff,
      ← Nat.lt_iff_le_pred positive]
    simp [Nat.lt_iff_le_pred positive]
  rw [bounded, ← atomsRaised, raise?]
  split
  · by_cases isWord : constant level + by_ < wordLimit <;>
      cases (atoms level).mapM (raiseAtom? by_) <;> simp [word?, isWord]
  · cases (atoms level).mapM (raiseAtom? by_) <;> simp [wordLimit]

theorem raise?_eq :
    raise? level by_ =
      if offsetBound level + by_ < wordLimit then some (raise level by_) else none := by
  split
  · rename_i isWord
    obtain ⟨raised, isRaised⟩ := Option.isSome_iff_exists.1 (isSome_raise?_iff.2 isWord)
    rw [isRaised, eq_raise_of_raise? isRaised]
  · rename_i tooLarge
    exact Option.not_isSome_iff_eq_none.1 (mt isSome_raise?_iff.1 tooLarge)

/-- The largest part of a level stays within the words exactly when all parts do. -/
theorem offsetBound_add_lt_iff :
    offsetBound level + by_ < wordLimit ↔
      constant level + by_ < wordLimit ∧ ∀ atom ∈ atoms level, atom.offset + by_ < wordLimit := by
  by_cases fits : by_ < wordLimit
  · have below : ∀ number, number + by_ < wordLimit ↔ number ≤ wordLimit - by_ - 1 := by
      intro number
      omega
    simp only [below, offsetBound, eval_le_iff, Nat.zero_add]
  · have above : ∀ number, ¬number + by_ < wordLimit := by
      intro number
      omega
    simp [above]

/-! ## Laws -/

@[simp]
theorem eval_canonicalise (value : Term → Nat) (level : Level) :
    eval value (canonicalise level) = eval value level := by
  apply eq_of_forall_ge_iff
  intro bound
  rw [canonicalise, eval_canonical_le_iff, eval_le_iff]

theorem canonical_canonicalise (level : Level) : Canonical (canonicalise level) :=
  canonical_canonical _ _

theorem canonical_join (left right : Level) : Canonical (join left right) :=
  canonical_canonical _ _

theorem canonical_raise (level : Level) (by_ : Nat) : Canonical (raise level by_) :=
  canonical_canonical _ _

/-- Raising a least upper bound raises both levels, and leaves the words when one of them does. -/
theorem raise?_join :
    raise? (join left right) by_ = (do
      let left' ← raise? left by_
      let right' ← raise? right by_
      pure (join left' right')) := by
  have bound : offsetBound (join left right) = max (offsetBound left) (offsetBound right) :=
    eval_join _ left right
  have raised : raise (join left right) by_ = join (raise left by_) (raise right by_) := by
    apply (canonical_raise _ _).eq_of_eval_eq (canonical_join _ _)
    simp [Nat.add_max_add_right]
  simp only [raise?_eq, bound, raised]
  by_cases leftWord : offsetBound left + by_ < wordLimit
  · by_cases rightWord : offsetBound right + by_ < wordLimit
    · simp [leftWord, rightWord, ← Nat.add_max_add_right]
    · simp [leftWord, rightWord, ← Nat.add_max_add_right]
  · simp [leftWord, ← Nat.add_max_add_right]

/-- Levels compute with maxima and sums, whatever their terms stand for, and give canonical forms.
These are determined by their values, so that the laws of maxima and sums are equations of
levels. -/
theorem maxima_and_sums (left right third : Level) (by_ : Nat) :
    (∀ value, eval value (canonicalise left) = eval value left ∧
      eval value (join left right) = max (eval value left) (eval value right)) ∧
    (∀ raised, raise? left by_ = some raised →
      Canonical raised ∧ ∀ value, eval value raised = eval value left + by_) ∧
    ((raise? left by_).isSome ↔
      constant left + by_ < wordLimit ∧ ∀ atom ∈ atoms left, atom.offset + by_ < wordLimit) ∧
    Canonical (canonicalise left) ∧
    Canonical (join left right) ∧
    (Canonical left → Canonical right →
      (left = right ↔ ∀ value, eval value left = eval value right)) ∧
    join (join left right) third = join left (join right third) ∧
    join left right = join right left ∧
    join left left = canonicalise left ∧
    raise? (join left right) by_ = (do
      let left' ← raise? left by_
      let right' ← raise? right by_
      pure (join left' right')) := by
  refine ⟨fun value => ⟨eval_canonicalise value left, eval_join value left right⟩, ?_, ?_,
    canonical_canonicalise left, canonical_join left right, ?_, ?_, ?_, ?_, raise?_join⟩
  · intro raised isRaised
    obtain rfl := eq_raise_of_raise? isRaised
    exact ⟨canonical_raise left by_, fun value => eval_raise value left by_⟩
  · rw [isSome_raise?_iff, offsetBound_add_lt_iff]
  · intro leftCanonical rightCanonical
    constructor
    · rintro rfl value
      rfl
    · exact leftCanonical.eq_of_eval_eq rightCanonical
  · apply (canonical_join _ _).eq_of_eval_eq (canonical_join _ _)
    simp [Nat.max_assoc]
  · apply (canonical_join _ _).eq_of_eval_eq (canonical_join _ _)
    simp [Nat.max_comm]
  · apply (canonical_join _ _).eq_of_eval_eq (canonical_canonicalise _)
    simp

/-- The larger of two variables and of one, raised by two: the variables are put in order, and the
constant stays since it is above their offsets. -/
theorem maxima_and_sums_variables :
    let low : Level := .lub 0 (.atom (.var 0) 0 .noAtoms)
    let high : Level := .lub 1 (.atom (.var 1) 0 .noAtoms)
    raise? (join high low) 2 =
        some (.lub 3 (.atom (.var 0) 2 (.atom (.var 1) 2 .noAtoms))) ∧
      Canonical low ∧ Canonical high ∧ (∃ value, eval value low ≠ eval value high) ∧
      ∃ raised, raise? high 2 = some raised ∧ Canonical raised ∧
        ∀ value, eval value raised = eval value high + 2 := by
  intro low high
  obtain ⟨_, _, _, _, _, unique, _⟩ := maxima_and_sums low high low 2
  obtain ⟨_, raises, _⟩ := maxima_and_sums high low low 2
  have lowCanonical : Canonical low := by simp [low, Canonical, Increasing, atoms, constant]
  have highCanonical : Canonical high := by simp [high, Canonical, Increasing, atoms, constant]
  have different : low ≠ high := by decide
  refine ⟨by decide +kernel, lowCanonical, highCanonical, ?_, _, rfl, raises _ rfl⟩
  by_contra same
  push Not at same
  exact different ((unique lowCanonical highCanonical).2 same)

/-! ## Order -/

/-- What is found at most part by part is at most for all values. -/
theorem eval_le_of_below (below : below left right) (value : Term → Nat) :
    eval value left ≤ eval value right := by
  obtain ⟨constantBound, atomBound⟩ := eval_le_iff.1 (Nat.le_refl (eval value right))
  simp only [Level.below, Bool.and_eq_true, Bool.or_eq_true, decide_eq_true_eq, List.any_eq_true,
    List.all_eq_true, beq_iff_eq] at below
  obtain ⟨constants, atoms⟩ := below
  refine eval_le_iff.2 ⟨?_, fun atom present => ?_⟩
  · rcases constants with smaller | ⟨atom, present, smaller⟩
    · exact smaller.trans constantBound
    · exact (smaller.trans (Nat.le_add_left _ _)).trans (atomBound atom present)
  · obtain ⟨bound, boundPresent, same, smaller⟩ := atoms atom present
    exact (Nat.add_le_add (Nat.le_of_eq (congrArg value same.symm)) smaller).trans
      (atomBound bound boundPresent)

/-- A number that a level reaches is reached by its constant or by an atom. -/
theorem exists_of_le_eval {number : Nat} (reaches : number ≤ eval value level) :
    number ≤ constant level ∨ ∃ atom ∈ atoms level, number ≤ value atom.term + atom.offset := by
  by_contra! short
  obtain ⟨constantShort, atomsShort⟩ := short
  have below : eval value level ≤ number - 1 := by
    refine eval_le_iff.2 ⟨by omega, fun atom present => ?_⟩
    have := atomsShort atom present
    omega
  omega

/-- What is at most for all values is found at most part by part. -/
theorem below_of_eval_le (smaller : ∀ value, eval value left ≤ eval value right) :
    below left right := by
  have parts := fun value => eval_le_iff.1 (smaller value)
  simp only [Level.below, Bool.and_eq_true, Bool.or_eq_true, decide_eq_true_eq, List.any_eq_true,
    List.all_eq_true, beq_iff_eq]
  constructor
  · -- Where all terms stand for zero, only constants and offsets count.
    simpa using exists_of_le_eval (parts fun _ => 0).1
  · -- A spike above all parts of the right level can only be reached by an atom with its term.
    intro atom present
    obtain ⟨constantBound, offsetBounds⟩ := eval_le_iff.1 (Nat.le_refl (offsetBound right))
    have reached := (parts (spike atom.term (offsetBound right + 1))).2 atom present
    rw [show spike atom.term (offsetBound right + 1) atom.term = offsetBound right + 1 from
      if_pos rfl] at reached
    rcases exists_of_le_eval reached with tooLow | ⟨bound, boundPresent, above⟩
    · omega
    · have := offsetBounds bound boundPresent
      by_cases same : bound.term = atom.term
      · refine ⟨bound, boundPresent, same, ?_⟩
        simp only [spike, if_pos same] at above
        omega
      · simp only [spike, if_neg same] at above
        omega

/-- Levels are judged to be in order exactly when their values are, whatever their terms stand
for. -/
theorem below_iff_eval_le (left right : Level) :
    below left right = true ↔ ∀ value, eval value left ≤ eval value right :=
  ⟨eval_le_of_below, below_of_eval_le⟩

end Families.Level
