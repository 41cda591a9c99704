import Families.Proofs.Comparisons
import Families.Proofs.Inert

/-!
# Dependencies between placeholders

A placeholder depends on those that occur in its solution.  A solution is normalised before it is
stored, so that none of its placeholders has a solution yet: the placeholder that was solved last
can be ranked below all others.  This keeps instantiation from running in circles.  It holds for
whatever is compared, also for phrases that stand in no scope.
-/

namespace Families

/-! ## Which placeholders occur -/

namespace Phrase

variable {category other : Category} {admitted admitted' : Category → Nat → Prop}

/-- Every placeholder in the phrase is admitted, by the category that it stands for and its number.
The depth only bounds the free variables, which may be any. -/
def Uses (admitted : Category → Nat → Prop) (phrase : Phrase category) : Prop :=
  ∃ depth, phrase.Scoped (fun kind id _ => admitted kind id) depth

theorem Uses.mono {phrase : Phrase category} (uses : phrase.Uses admitted)
    (more : ∀ {kind id}, admitted kind id → admitted' kind id) : phrase.Uses admitted' := by
  obtain ⟨depth, inScope⟩ := uses
  exact ⟨depth, inScope.mono more (Nat.le_refl depth)⟩

/-- Two phrases have a bound for the free variables of both. -/
theorem Uses.both {left : Phrase category} {right : Phrase other} (leftUses : left.Uses admitted)
    (rightUses : right.Uses admitted) :
    ∃ depth, left.Scoped (fun kind id _ => admitted kind id) depth ∧
      right.Scoped (fun kind id _ => admitted kind id) depth := by
  obtain ⟨leftDepth, leftInScope⟩ := leftUses
  obtain ⟨rightDepth, rightInScope⟩ := rightUses
  exact ⟨max leftDepth rightDepth, leftInScope.mono id (Nat.le_max_left _ _),
    rightInScope.mono id (Nat.le_max_right _ _)⟩

theorem Uses.pi {name : Name} {info : ArgInfo} {domain codomain : Ty}
    (domainUses : domain.Uses admitted) (codomainUses : codomain.Uses admitted) :
    (Phrase.pi name info domain codomain).Uses admitted := by
  obtain ⟨depth, domainInScope, codomainInScope⟩ := domainUses.both codomainUses
  exact ⟨depth, domainInScope, codomainInScope.mono id (Nat.le_succ depth)⟩

/-- The free variables of every phrase have a bound. -/
theorem uses_of_forall (all : ∀ kind id, admitted kind id) (phrase : Phrase category) :
    phrase.Uses admitted := by
  induction phrase with
  | var index => exact ⟨index + 1, Nat.lt_succ_self index⟩
  | app _ _ _ left right | classified _ _ left right | atom _ _ _ left right
  | terms _ _ left right =>
    exact left.both right
  | pi _ _ _ _ ihDomain ihCodomain => exact ihDomain.pi ihCodomain
  | univ _ ih | level _ ih | set _ ih
    | lub _ _ ih => exact ih
  | placeholder id _ ih | sortPlaceholder id _ ih =>
    obtain ⟨depth, inScope⟩ := ih
    exact ⟨depth, all _ id, inScope⟩
  | _ => exact ⟨0, trivial⟩

/-- A phrase under arguments uses what it uses itself and what the arguments use. -/
theorem Uses.substitute? {phrase result : Phrase category} {arguments : List Term} {depth : Nat}
    (uses : phrase.Uses admitted)
    (argumentsInScope : ∀ argument ∈ arguments,
      argument.Scoped (fun kind id _ => admitted kind id) depth)
    (substituted : phrase.substitute? arguments = some result) : result.Uses admitted := by
  obtain ⟨source, inScope⟩ := uses
  refine ⟨max source depth, ?_⟩
  rw [eq_replace_of_substitute? substituted]
  refine inScope.replace fun index bounded => ?_
  unfold assigned
  split
  · rename_i argument found
    exact (argumentsInScope argument (List.mem_of_getElem? found)).mono id (Nat.le_max_right _ _)
  · show index - arguments.length < max source depth
    omega

theorem Scoped.avoids {fits : Category → Nat → Nat → Prop} {phrase : Phrase category}
    {depth id : Nat} (inScope : phrase.Scoped fits depth) (avoids : phrase.mentions id = false) :
    phrase.Scoped (fun kind other count => fits kind other count ∧ other ≠ id) depth := by
  induction phrase generalizing depth with
  | _ => grind [Scoped, mentions, anyPlaceholder]

/-- A placeholder that is mentioned is used in some category. -/
theorem Scoped.of_mentions {fits : Category → Nat → Nat → Prop} {phrase : Phrase category}
    {depth id : Nat} (inScope : phrase.Scoped fits depth) (mentioned : phrase.mentions id) :
    ∃ kind count, fits kind id count := by
  by_contra none
  have avoids : phrase.mentions id = false := by
    induction phrase generalizing depth with
    | _ => grind [Scoped, mentions, anyPlaceholder]
  simp [avoids] at mentioned

end Phrase

/-! ## What can be unfolded -/

theorem Phrase.uses_of_atomList {admitted : Category → Nat → Prop} :
    ∀ {atoms : Phrase .atoms}, (∀ atom ∈ atoms.atomList, atom.term.Uses admitted) →
      atoms.Uses admitted
  | .noAtoms, _ => ⟨0, trivial⟩
  | .atom _ _ _, each => by
    rw [atomList_atom, List.forall_mem_cons] at each
    exact each.1.both (uses_of_atomList each.2)

namespace Solution

/-- The category of a solution. -/
def category : Solution → Category
  | term _ => .term
  | sort _ => .sort

/-- A solution as a phrase. -/
def phrase : (solution : Solution) → Phrase solution.category
  | term value => value
  | sort value => value

end Solution

namespace State

variable {state : State} {admitted : Category → Nat → Prop}

/-- The placeholder has a solution of the category. -/
def Solved (state : State) (kind : Category) (id : Nat) : Prop :=
  ∃ solution, state.solution? id = some solution ∧ solution.category = kind

/-- Whatever a phrase unfolds to uses admitted placeholders only. -/
structure Supplies (state : State) (admitted : Category → Nat → Prop) : Prop where
  solutions : ∀ {id solution}, state.solution? id = some solution →
    admitted solution.category id → solution.phrase.Uses admitted
  bodies : ∀ {path arity body}, state.signature.body? path = some (arity, body) →
    body.Uses admitted

theorem Supplies.headStep {term next : Term} (supplies : state.Supplies admitted)
    (uses : term.Uses admitted) (step : HeadStep state term next) : next.Uses admitted := by
  obtain ⟨depth, inScope⟩ := uses
  obtain ⟨headInScope, argumentsInScope⟩ := (Phrase.scoped_iff_arguments term).1 inScope
  -- What replaces the head stands under some of the arguments.
  have applied : ∀ {value : Term} {rest : List (ArgInfo × Term)}, value.Uses admitted →
      (∀ argument ∈ rest, argument ∈ term.arguments) → (value.applyTo rest).Uses admitted := by
    rintro value rest ⟨valueDepth, valueInScope⟩ areArguments
    refine ⟨max valueDepth depth, (valueInScope.mono id (Nat.le_max_left _ _)).applyTo ?_⟩
    exact fun argument present =>
      (argumentsInScope argument (areArguments argument present)).mono id (Nat.le_max_right _ _)
  cases step with
  | placeholder isPlaceholder solved substituted =>
    rw [isPlaceholder] at headInScope
    have solutionUses := supplies.solutions solved headInScope.1
    have argumentsInScope := (Phrase.scoped_iff_toList _).1 headInScope.2
    exact applied (Phrase.Uses.substitute? solutionUses argumentsInScope substituted)
      fun _ present => present
  | function _ found _ substituted =>
    exact applied ((supplies.bodies found).substitute?
      (forall_mem_taken argumentsInScope) substituted)
      fun _ present => List.mem_of_mem_drop present

/-- Reduction brings in nothing that is not admitted. -/
theorem Supplies.reduce {fuel : Nat} {category : Category} {phrase result : Phrase category}
    (supplies : state.Supplies admitted) (reduced : reduce state fuel phrase = .ok result)
    (uses : phrase.Uses admitted) : result.Uses admitted := by
  have reached := reached_of_reduce reduced
  clear reduced
  induction reached with
  | univ _ ih | level _ ih | set _ ih => exact ih uses
  | step step _ ih => exact ih (supplies.headStep uses step)
  | sortStep solved substituted _ ih =>
    obtain ⟨depth, inScope⟩ := uses
    have solutionUses := supplies.solutions solved inScope.1
    have argumentsInScope := (Phrase.scoped_iff_toList _).1 inScope.2
    exact ih (Phrase.Uses.substitute? solutionUses argumentsInScope substituted)
  | @lub _ _ _ joined _ flattens _ ih =>
    obtain ⟨depth, inScope⟩ := uses
    have termsUse : ∀ term ∈ Level.terms joined, term.Uses admitted := by
      intro term present
      obtain ⟨source, sourcePresent, isLeaf⟩ := flattens.exists_leaf present
      obtain ⟨depth, inScope⟩ := ih source sourcePresent
        ⟨depth, (Phrase.scoped_iff_atomList _).1 inScope source sourcePresent⟩
      exact ⟨depth, inScope.leaf isLeaf⟩
    cases joined with
    | lub constant atoms =>
      exact Phrase.uses_of_atomList fun atom present => termsUse _ (List.mem_map_of_mem present)
  | stops => exact uses

end State

/-- A placeholder for a term at which reduction ends has no term as its solution. -/
theorem Inert.not_solved {state : State} {id : Nat} {arguments : Phrase .terms}
    (inert : Inert state (.placeholder id arguments)) : ¬state.Solved .term id := by
  rintro ⟨solution, solved, isTerm⟩
  cases inert with
  | stops stops =>
    cases solution with
    | term value =>
      exact (unfoldHead?_eq_none_iff.1 stops).1 id arguments rfl value solved
    | sort value => simp [Solution.category] at isTerm

/-- A placeholder for a sort at which reduction ends has no sort as its solution. -/
theorem Inert.not_solved_sort {state : State} {id : Nat} {arguments : Phrase .terms}
    (inert : Inert state (.sortPlaceholder id arguments)) : ¬state.Solved .sort id := by
  rintro ⟨solution, solved, isSort⟩
  cases inert with
  | stops stops =>
    cases solution with
    | term value => simp [Solution.category] at isSort
    | sort value => exact stops value solved

/-- Normalisation leaves no placeholder that it could unfold. -/
theorem State.Supplies.normalise {state : State} {admitted : Category → Nat → Prop} {fuel : Nat}
    {category : Category} {phrase result : Phrase category} (supplies : state.Supplies admitted)
    (reached : normalise state fuel phrase = .ok result) (uses : phrase.Uses admitted) :
    result.Uses fun kind id => admitted kind id ∧ ¬state.Solved kind id := by
  induction fuel generalizing category phrase result with
  | zero => cases reached
  | succ fuel ih =>
    obtain ⟨head, reduced, rebuilds⟩ := normalise_eq_ok_iff.1 reached
    have inert := inert_of_reduce reduced
    obtain ⟨depth, inScope⟩ := supplies.reduce reduced uses
    cases rebuilds with
    | var | const | prop | sizeUniv | omega | noAtoms | noTerms => exact ⟨depth, inScope⟩
    | app left right | classified left right | atom left right | terms left right =>
      exact (ih left ⟨depth, inScope.1⟩).both (ih right ⟨depth, inScope.2⟩)
    | pi domain codomain =>
      exact (ih domain ⟨depth, inScope.1⟩).pi (ih codomain ⟨depth + 1, inScope.2⟩)
    | univ part | level part | set part =>
      have partUses := ih part ⟨depth, inScope⟩
      exact partUses
    | placeholder arguments =>
      obtain ⟨depth', inScope'⟩ := ih arguments ⟨depth, inScope.2⟩
      exact ⟨depth', ⟨inScope.1, inert.not_solved⟩, inScope'⟩
    | sortPlaceholder arguments =>
      obtain ⟨depth', inScope'⟩ := ih arguments ⟨depth, inScope.2⟩
      exact ⟨depth', ⟨inScope.1, inert.not_solved_sort⟩, inScope'⟩
    | @lub _ _ atoms' atoms =>
      obtain ⟨depth', inScope'⟩ := ih atoms ⟨depth, inScope⟩
      exact ⟨depth', Level.scoped_canonical ((Phrase.scoped_iff_atomList atoms').1 inScope')⟩

/-! ## Ranks -/

namespace State

variable {state : State} {admitted : Category → Nat → Prop} {rank : Nat → Nat}

/-- A placeholder ranks above those that its solution uses and that can be unfolded there. -/
structure Ordered (state : State) (admitted : Category → Nat → Prop) (rank : Nat → Nat) : Prop where
  bodies : ∀ {path arity body}, state.signature.body? path = some (arity, body) →
    body.Uses admitted
  solved : ∀ {id solution}, state.solution? id = some solution → admitted solution.category id
  /-- The solutions use admitted placeholders of lower rank. -/
  solutions : ∀ {id solution}, state.solution? id = some solution →
    solution.phrase.Uses fun kind other =>
      admitted kind other ∧ (state.Solved kind other → rank other < rank id)

theorem Ordered.supplies (ordered : state.Ordered admitted rank) :
    state.Supplies admitted where
  solutions solved _ := (ordered.solutions solved).mono And.left
  bodies := ordered.bodies

/-- A state is ordered by any rank as long as nothing is solved. -/
theorem ordered_of_unsolved (unsolved : ∀ id, state.solution? id = none)
    (bodies : ∀ {path arity body}, state.signature.body? path = some (arity, body) →
      body.Uses admitted) :
    state.Ordered admitted rank where
  bodies := bodies
  solved solved := by simp [unsolved] at solved
  solutions solved := by simp [unsolved] at solved

/-- The order depends on the solutions and the bodies of functions only. -/
theorem Ordered.congr {after : State} (ordered : state.Ordered admitted rank)
    (sameSignature : after.signature = state.signature)
    (sameSolutions : ∀ id, after.solution? id = state.solution? id) :
    after.Ordered admitted rank where
  bodies found := ordered.bodies (sameSignature ▸ found)
  solved solved := ordered.solved (sameSolutions _ ▸ solved)
  solutions {id solution} solved := by
    rw [sameSolutions] at solved
    simpa only [Solved, sameSolutions] using ordered.solutions solved

/-- The placeholder that is solved last ranks below all others. -/
theorem Ordered.solve {after : State} {id : Nat} {solution : Solution}
    (ordered : state.Ordered admitted rank) (succeeded : state.solve id solution = .ok after)
    (isAdmitted : admitted solution.category id)
    (uses : solution.phrase.Uses fun kind other =>
      (admitted kind other ∧ ¬state.Solved kind other) ∧ other ≠ id) :
    after.Ordered admitted fun other => if other = id then 0 else rank other + 1 := by
  have isSolution := solution?_of_solve succeeded
  have solvedBefore : ∀ {kind other}, other ≠ id → after.Solved kind other →
      state.Solved kind other := by
    rintro kind other different ⟨found, solved, sameKind⟩
    exact ⟨found, solution?_of_solve_of_ne succeeded different ▸ solved, sameKind⟩
  constructor
  · exact fun found => ordered.bodies ((grows_solve succeeded).signature ▸ found)
  · intro other found solved
    by_cases same : other = id
    · subst same
      obtain rfl := Option.some.inj (isSolution.symm.trans solved)
      exact isAdmitted
    · exact ordered.solved (solution?_of_solve_of_ne succeeded same ▸ solved)
  · intro other found solved
    by_cases same : other = id
    · subst same
      obtain rfl := Option.some.inj (isSolution.symm.trans solved)
      -- None of the placeholders in the new solution has a solution of its own.
      refine uses.mono fun {kind used} facts => ⟨facts.1.1, fun solvedAfter => ?_⟩
      exact absurd (solvedBefore facts.2 solvedAfter) facts.1.2
    · rw [solution?_of_solve_of_ne succeeded same] at solved
      refine (ordered.solutions solved).mono fun {kind used} facts =>
        ⟨facts.1, fun solvedAfter => ?_⟩
      by_cases isNew : used = id
      · simp [isNew, same]
      · simpa [isNew, same] using facts.2 (solvedBefore isNew solvedAfter)

end State

end Families
