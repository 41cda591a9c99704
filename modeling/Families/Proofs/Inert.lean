import Families.Proofs.Layers

/-!
# What reduction ends with

Reduction of a phrase ends with one that it leaves as it is.  This needs no scopes: it holds in
every state and for every phrase.
-/

namespace Families

open Filter

variable {state : State} {fuel : Nat} {category : Category} {phrase result : Phrase category}

/-- Reduction leaves the phrase as it is.  The terms of a level are no levels, and it is in
canonical form. -/
inductive Inert (state : State) : {category : Category} → Phrase category → Prop where
  | stops {category : Category} {phrase : Phrase category} :
      Stops state phrase → Inert state phrase
  | univ {sort : Universe} : Inert state sort → Inert state (.univ sort)
  | level {bound : Level} : Inert state bound → Inert state (.level bound)
  | set {bound : Level} : Inert state bound → Inert state (.set bound)
  | lub {constant : Nat} {atoms : Phrase .atoms} :
      Level.Canonical (.lub constant atoms) →
      (∀ atom ∈ atoms.atomList, ¬atom.term.IsLevel) →
      (∀ atom ∈ atoms.atomList, Inert state atom.term) →
      Inert state (.lub constant atoms)

namespace Inert

variable {state : State} {category : Category}

/-- A level is inert if it is canonical and has inert terms, which are no levels. -/
theorem level_iff {bound : Level} : Inert state bound ↔ Level.Canonical bound ∧
    ∀ term ∈ Level.terms bound, ¬term.IsLevel ∧ Inert state term := by
  cases bound with | lub constant atoms =>
  constructor
  · intro inert
    cases inert with
    | stops stops => exact stops.elim
    | lub canonical noLevels inertTerms =>
      exact ⟨canonical, List.forall_mem_map.2 fun atom present =>
        ⟨noLevels atom present, inertTerms atom present⟩⟩
  · rintro ⟨canonical, each⟩
    have each := List.forall_mem_map.1 each
    exact .lub canonical (fun atom present => (each atom present).1) fun atom present =>
      (each atom present).2

theorem flat {bound : Level} (inert : Inert state bound) : Level.Flat bound :=
  fun term present => ((level_iff.1 inert).2 term present).1

theorem of_level {bound : Level} (inert : Inert state (.level bound)) : Inert state bound := by
  cases inert with
  | stops stops => exact stops.elim
  | level inert => exact inert

/-- The leaves of an inert term are inert. -/
theorem leaf {term leaf : Term} (inert : Inert state term) (present : leaf ∈ term.leaves) :
    Inert state leaf := by
  by_cases isLevel : term.IsLevel
  · cases term with
    | level bound =>
      have inertBound := inert.of_level
      have leafOfBound := inertBound.flat.mem_leaves.1 present
      exact ((level_iff.1 inertBound).2 leaf leafOfBound).2
    | _ => exact isLevel.elim
  · rw [Phrase.leaves_of_not_isLevel isLevel, List.mem_singleton] at present
    exact present ▸ inert

end Inert

/-- What reduction returns is inert. -/
theorem Reached.inert (reached : Reached state phrase result) : Inert state result := by
  induction reached with
  | univ _ ih => exact .univ ih
  | level _ ih => exact .level ih
  | set _ ih => exact .set ih
  | step _ _ ih => exact ih
  | sortStep _ _ _ ih => exact ih
  | @lub _ _ _ joined _ flattens canonical ih =>
    refine Inert.level_iff.2 ⟨canonical, fun term present => ⟨flattens.flat term present, ?_⟩⟩
    obtain ⟨source, sourcePresent, isLeaf⟩ := flattens.exists_leaf present
    exact (ih source sourcePresent).leaf isLeaf
  | stops stops => exact .stops stops

/-! ## What a level reduces to -/

/-- The level that an atom with a reduced term stands for. -/
theorem reducedAtom_eq_ok {offset : Nat} {part : Level}
    (flat : ∀ inner, term = .level inner → Level.Flat inner)
    (succeeded : reducedAtom term offset = .ok part) :
    (∀ value, part.deepEval value = term.deepEval value + offset) ∧
      ∀ leaf, leaf ∈ Level.terms part ↔ leaf ∈ term.leaves := by
  unfold reducedAtom at succeeded
  split at succeeded
  · rename_i inner
    rw [Level.eq_raise_of_raise? (checked_eq_ok_iff.1 succeeded)]
    constructor
    · intro value
      rw [Level.deepEval_eq_eval, Level.eval_raise, ← Level.deepEval_eq_eval]
      rfl
    · intro leaf
      rw [Level.mem_terms_raise, ← (flat inner rfl).mem_leaves]
      rfl
  · rename_i noLevel
    have notLevel : ¬term.IsLevel := by
      cases term with
      | level inner => exact absurd rfl (noLevel inner)
      | _ => exact id
    obtain rfl := Except.ok.inj succeeded
    constructor
    · intro value
      simp [Level.deepEval_eq_eval, Level.eval]
    · simp [Level.terms, Phrase.leaves_of_not_isLevel notLevel]

/-- The level that reduced atoms are joined to. -/
theorem foldlM_join_eq_ok {reduceTerm : Term → Except Halt Term} {heads : Term → Term}
    (isHead : ∀ term result, reduceTerm term = .ok result → heads term = result) :
    ∀ (atoms : Phrase .atoms) (start joined : Level),
      (∀ atom ∈ atoms.atomList, ∀ inner, reduceTerm atom.term = .ok (.level inner) →
        Level.Flat inner) →
      atoms.atomList.foldlM
        (fun joined atom => do
          let term ← reduceTerm atom.term
          let part ← reducedAtom term atom.offset
          pure (Level.join joined part))
        start = .ok joined →
      (∀ atom ∈ atoms.atomList, reduceTerm atom.term = .ok (heads atom.term)) ∧
      (∀ value, joined.deepEval value =
        max (start.deepEval value) ((atoms.mapAtoms heads).deepEval value)) ∧
      ∀ leaf, leaf ∈ Level.terms joined ↔
        leaf ∈ Level.terms start ∨ leaf ∈ (atoms.mapAtoms heads).leaves
  | .noAtoms, start, joined, _, succeeded => by
    obtain rfl := Except.ok.inj succeeded
    simp [Phrase.mapAtoms, Phrase.deepEval, Phrase.leaves]
  | .atom term offset rest, start, joined, flat, succeeded => by
    rw [Phrase.atomList_atom, List.foldlM_cons, bind_eq_ok_iff] at succeeded
    obtain ⟨next, stepped, restSucceeded⟩ := succeeded
    simp only [bind_eq_ok_iff, pure_eq_ok_iff] at stepped
    obtain ⟨result, reduced, part, partFound, rfl⟩ := stepped
    obtain ⟨partValue, partTerms⟩ := reducedAtom_eq_ok
      (fun inner same => flat ⟨term, offset⟩ (by simp) inner (same ▸ reduced)) partFound
    obtain ⟨restReduced, value, leaves⟩ := foldlM_join_eq_ok isHead rest _ _
      (fun atom present => flat atom (by simp [present])) restSucceeded
    obtain rfl := isHead term result reduced
    refine ⟨?_, ?_, ?_⟩
    · simpa using ⟨reduced, restReduced⟩
    · intro valuation
      rw [value, Level.deepEval_eq_eval _ (Level.join start part), Level.eval_join,
        ← Level.deepEval_eq_eval, ← Level.deepEval_eq_eval, partValue, Nat.max_assoc]
      rfl
    · intro leaf
      rw [leaves, Level.mem_terms_join, partTerms, or_assoc]
      simp [Phrase.mapAtoms, Phrase.leaves]

/-- The result of reduction, or the term itself where there is none. -/
def headOf (state : State) (fuel : Nat) (term : Term) : Term :=
  match reduce state fuel term with
  | .ok result => result
  | .error _ => term

theorem headOf_eq {result : Term} (reduced : reduce state fuel term = .ok result) :
    headOf state fuel term = result := by
  simp [headOf, reduced]

/-- A level reduces to one with the value of its reduced terms, if these bring flat levels only. -/
theorem flattens_of_reduce_of_flat {constant : Nat} {atoms : Phrase .atoms} {joined : Level}
    (flat : ∀ atom ∈ atoms.atomList, ∀ inner,
      reduce state fuel atom.term = .ok (.level inner) → Level.Flat inner)
    (reduced : reduce state (fuel + 1) (.lub constant atoms) = .ok joined) :
    (∀ atom ∈ atoms.atomList, reduce state fuel atom.term = .ok (headOf state fuel atom.term)) ∧
      Level.Flattens (Phrase.lub constant (atoms.mapAtoms (headOf state fuel))) joined := by
  have isHead : ∀ term result, reduce state fuel term = .ok result →
      headOf state fuel term = result := fun _ _ => headOf_eq
  simp only [reduce] at reduced
  obtain ⟨heads, value, leaves⟩ := foldlM_join_eq_ok isHead atoms _ _ flat reduced
  refine ⟨heads, fun valuation => ?_, fun leaf => ?_⟩
  · rw [value, Level.deepEval_eq_eval, Level.eval_ofNat]
    rfl
  · rw [leaves]
    simp [Level.ofNat, Level.terms, Phrase.leaves]

/-- A level reduces to its canonical form. -/
theorem canonical_of_reduce {constant : Nat} {atoms : Phrase .atoms} {joined : Level}
    (reduced : reduce state (fuel + 1) (.lub constant atoms) = .ok joined) :
    Level.Canonical joined := by
  have start : Level.Canonical (Level.ofNat constant) := by
    simp [Level.Canonical, Level.Increasing, Level.ofNat]
  simp only [reduce] at reduced
  refine holds_of_foldlM start (fun atom _ value next _ stepped => ?_) reduced
  simp only [bind_eq_ok_iff, pure_eq_ok_iff] at stepped
  obtain ⟨_, _, _, _, rfl⟩ := stepped
  exact Level.canonical_canonical _ _

/-- Successful reduction leads to its result. -/
theorem reached_of_reduce (reduced : reduce state fuel phrase = .ok result) :
    Reached state phrase result := by
  induction fuel generalizing category phrase result with
  | zero => cases reduced
  | succ fuel ih =>
    cases phrase with
    | univ | level | set =>
      simp only [reduce, bind_eq_ok_iff, pure_eq_ok_iff] at reduced
      obtain ⟨part, partReduced, rfl⟩ := reduced
      constructor
      exact ih partReduced
    | const | app | placeholder =>
      simp only [reduce, bind_eq_ok_iff] at reduced
      obtain ⟨next?, unfolded, continued⟩ := reduced
      cases next? with
      | none => exact Except.ok.inj continued ▸ .stops unfolded
      | some next => exact .step (unfoldHead?_eq_some_iff.1 unfolded) (ih continued)
    | sortPlaceholder id arguments =>
      simp only [reduce] at reduced
      split at reduced
      · rename_i solved
        simp only [bind_eq_ok_iff, checked_eq_ok_iff] at reduced
        obtain ⟨sort, substituted, continued⟩ := reduced
        exact .sortStep solved substituted (ih continued)
      · rename_i unsolved
        exact Except.ok.inj reduced ▸ .stops unsolved
    | lub constant atoms =>
      obtain ⟨heads, flattens⟩ :=
        flattens_of_reduce_of_flat (fun _ _ _ reduced => (ih reduced).inert.of_level.flat) reduced
      exact .lub (fun atom present => ih (heads atom present)) flattens
        (canonical_of_reduce reduced)
    | _ =>
      obtain rfl := Except.ok.inj reduced
      first | exact .stops rfl | exact .stops trivial

theorem inert_of_reduce (reduced : reduce state fuel phrase = .ok result) : Inert state result :=
  (reached_of_reduce reduced).inert

/-- A level reduces to one with the value of its reduced terms. -/
theorem flattens_of_reduce {constant : Nat} {atoms : Phrase .atoms} {joined : Level}
    (reduced : reduce state (fuel + 1) (.lub constant atoms) = .ok joined) :
    (∀ atom ∈ atoms.atomList, reduce state fuel atom.term = .ok (headOf state fuel atom.term)) ∧
      Level.Flattens (Phrase.lub constant (atoms.mapAtoms (headOf state fuel))) joined :=
  flattens_of_reduce_of_flat (fun _ _ _ reduced => (inert_of_reduce reduced).of_level.flat) reduced

theorem Phrase.mapAtoms_eq_self {change : Term → Term} :
    ∀ {atoms : Phrase .atoms}, (∀ atom ∈ atoms.atomList, change atom.term = atom.term) →
      atoms.mapAtoms change = atoms
  | .noAtoms, _ => rfl
  | .atom term offset rest, unchanged => by
    rw [atomList_atom, List.forall_mem_cons] at unchanged
    rw [mapAtoms, mapAtoms_eq_self unchanged.2, unchanged.1]

/-- Reduction stops at once where it does not look at the parts. -/
theorem reduce_of_stops (stops : Stops state phrase) (fuel : Nat) :
    reduce state (fuel + 1) phrase = .ok phrase := by
  cases phrase with
  | univ | level | set | lub => exact stops.elim
  | const | app | placeholder =>
    have stops : unfoldHead? state _ = .ok none := stops
    simp only [reduce, stops]
    rfl
  | sortPlaceholder id arguments =>
    simp only [reduce]
    split
    · rename_i solution solved
      exact absurd solved (stops solution)
    · rfl
  | _ => rfl

/-- Reduction leaves an inert phrase as it is. -/
theorem Inert.reduce_eq (inert : Inert state phrase)
    (reduced : reduce state fuel phrase = .ok result) : result = phrase := by
  induction inert generalizing fuel with
  | stops stops =>
    cases fuel with
    | zero => simp [reduce] at reduced
    | succ fuel => exact (Except.ok.inj ((reduce_of_stops stops fuel).symm.trans reduced)).symm
  | univ _ ih | level _ ih | set _ ih =>
    cases fuel with
    | zero => simp [reduce] at reduced
    | succ fuel =>
      simp only [reduce, bind_eq_ok_iff, pure_eq_ok_iff] at reduced
      obtain ⟨part, partReduced, rfl⟩ := reduced
      rw [ih partReduced]
  | @lub constant atoms canonical noLevels inertTerms ih =>
    cases fuel with
    | zero => simp [reduce] at reduced
    | succ fuel =>
      obtain ⟨heads, flattens⟩ := flattens_of_reduce reduced
      rw [Phrase.mapAtoms_eq_self fun atom present =>
        ih atom present (heads atom present)] at flattens
      exact (canonical_of_reduce reduced).eq_of_deepEval_eq canonical flattens.flat
        (Inert.lub canonical noLevels inertTerms).flat flattens.value

/-- Reduction leaves a canonical level as it is if it leaves its terms, and these are no levels. -/
theorem reduce_lub {constant : Nat} {atoms : Phrase .atoms}
    (canonical : Level.Canonical (.lub constant atoms))
    (noLevels : ∀ atom ∈ atoms.atomList, ¬atom.term.IsLevel)
    (reached : ∀ atom ∈ atoms.atomList, reduce state fuel atom.term = .ok atom.term) :
    reduce state (fuel + 1) (.lub constant atoms) = .ok (.lub constant atoms) := by
  have succeeds : ∃ joined, reduce state (fuel + 1) (.lub constant atoms) = .ok joined := by
    simp only [reduce]
    refine exists_foldlM_eq_ok (fun atom present joined => ?_) _
    have noLevel := noLevels atom present
    rw [reached atom present]
    cases isTerm : atom.term with
    | level bound =>
      rw [isTerm] at noLevel
      exact absurd trivial noLevel
    | _ => exact ⟨_, rfl⟩
  obtain ⟨joined, reduced⟩ := succeeds
  have inert := Inert.lub canonical noLevels fun atom present =>
    inert_of_reduce (reached atom present)
  rw [reduced, inert.reduce_eq reduced]

/-- What holds of all successors from some point on holds from some point on. -/
theorem eventually_of_succ {holds : Nat → Prop} (eventually : ∀ᶠ fuel in atTop, holds (fuel + 1)) :
    ∀ᶠ fuel in atTop, holds fuel := by
  obtain ⟨enough, holds⟩ := eventually_atTop.1 eventually
  refine eventually_atTop.2 ⟨enough + 1, fun fuel larger => ?_⟩
  obtain ⟨less, rfl⟩ : ∃ less, fuel = less + 1 := ⟨fuel - 1, by omega⟩
  exact holds less (by omega)

/-- With enough fuel reduction returns an inert phrase. -/
theorem Inert.eventually_reduce (inert : Inert state phrase) :
    ∀ᶠ fuel in atTop, reduce state fuel phrase = .ok phrase := by
  induction inert with
  | stops stops => exact eventually_of_succ (.of_forall fun fuel => reduce_of_stops stops fuel)
  | univ _ ih | level _ ih | set _ ih =>
    refine eventually_of_succ ?_
    filter_upwards [ih] with fuel reached
    simp only [reduce, reached]
    rfl
  | @lub constant atoms canonical noLevels inertTerms ih =>
    refine eventually_of_succ ?_
    filter_upwards [(eventually_all_finite (List.finite_toSet _)).2 ih] with fuel reached
    exact reduce_lub canonical noLevels reached

end Families
