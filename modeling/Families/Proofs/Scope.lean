import Families.Proofs.Variables

/-!
# Scopes

A phrase is scoped when all its free variables are below a bound and every placeholder in it exists,
stands for a phrase of the right category and has an argument for each variable of its own scope.
Renaming, substitution and all operations built from them keep phrases scoped.
-/

namespace Families

variable {category : Category} {depth depth' : Nat} {phrase result : Phrase category}
variable {index id : Nat} {image : (depth index : Nat) → Term → Prop} {arguments : List Term}
variable {pattern : List Nat}

namespace Phrase

variable {category : Category}

/-- The free variables are below `depth`, and `fits` allows each placeholder, by its category and
its number, to have as many arguments as it has. -/
def Scoped (fits : Category → Nat → Nat → Prop) :
    {category : Category} → (depth : Nat) → Phrase category → Prop
  | _, depth, var index => index < depth
  | _, _, const _ => True
  | _, depth, app function argument _ => function.Scoped fits depth ∧ argument.Scoped fits depth
  | _, depth, pi _ _ domain codomain => domain.Scoped fits depth ∧ codomain.Scoped fits (depth + 1)
  | _, depth, univ sort => sort.Scoped fits depth
  | _, depth, level bound => bound.Scoped fits depth
  | _, depth, placeholder id arguments =>
    fits .term id arguments.toList.length ∧ arguments.Scoped fits depth
  | _, depth, classified sort term => sort.Scoped fits depth ∧ term.Scoped fits depth
  | _, _, prop => True
  | _, depth, set bound => bound.Scoped fits depth
  | _, _, sizeUniv => True
  | _, _, omega => True
  | _, depth, sortPlaceholder id arguments =>
    fits .sort id arguments.toList.length ∧ arguments.Scoped fits depth
  | _, depth, lub _ atoms => atoms.Scoped fits depth
  | _, _, noAtoms => True
  | _, depth, atom term _ rest => term.Scoped fits depth ∧ rest.Scoped fits depth
  | _, _, noTerms => True
  | _, depth, terms first rest => first.Scoped fits depth ∧ rest.Scoped fits depth

attribute [local simp] Scoped

/-- The free variables are below `depth`. -/
def Below (depth : Nat) (phrase : Phrase category) : Prop :=
  phrase.Scoped (fun _ _ _ => True) depth

variable {fits fits' : Category → Nat → Nat → Prop}

/-- A scoped phrase stays scoped in a larger scope and when more placeholders fit. -/
theorem Scoped.mono (inScope : phrase.Scoped fits depth)
    (more : ∀ {kind id count}, fits kind id count → fits' kind id count) (deeper : depth ≤ depth') :
    phrase.Scoped fits' depth' := by
  induction phrase generalizing depth depth' with
  | var index => exact Nat.lt_of_lt_of_le inScope deeper
  | pi name info domain codomain ihDomain ihCodomain =>
    exact ⟨ihDomain inScope.1 deeper, ihCodomain inScope.2 (by omega)⟩
  | _ => grind [Scoped]

theorem Scoped.below (inScope : phrase.Scoped fits depth) : phrase.Below depth :=
  inScope.mono (fun _ => trivial) (Nat.le_refl depth)

/-! ## Types, sequences and applications -/

theorem Scoped.sort :
    ∀ {ty : Ty}, ty.Scoped fits depth → ty.sort.Scoped fits depth
  | classified _ _, inScope => inScope.1

theorem Scoped.term :
    ∀ {ty : Ty}, ty.Scoped fits depth → ty.term.Scoped fits depth
  | classified _ _, inScope => inScope.2

/-- A sequence is scoped exactly when its terms are. -/
theorem scoped_iff_toList :
    ∀ sequence : Phrase .terms,
      sequence.Scoped fits depth ↔ ∀ term ∈ sequence.toList, term.Scoped fits depth
  | noTerms => by simp [Scoped]
  | terms first rest => by simp [Scoped, scoped_iff_toList rest]

/-- Atoms are scoped exactly when their terms are. -/
theorem scoped_iff_atomList :
    ∀ atoms : Phrase .atoms,
      atoms.Scoped fits depth ↔ ∀ atom ∈ atoms.atomList, atom.term.Scoped fits depth
  | noAtoms => by simp [Scoped]
  | atom term offset rest => by simp [Scoped, scoped_iff_atomList rest]

/-- An application is scoped exactly when its head and all its arguments are. -/
theorem scoped_iff_argumentsFrom (later : List (ArgInfo × Term)) (phrase : Phrase category) :
    phrase.Scoped fits depth ∧ (∀ argument ∈ later, argument.2.Scoped fits depth) ↔
      phrase.head.Scoped fits depth ∧
        ∀ argument ∈ phrase.argumentsFrom later, argument.2.Scoped fits depth := by
  induction phrase generalizing later with
  | app function argument info ihFunction ihArgument =>
    simp only [head, argumentsFrom, Scoped]
    rw [← ihFunction]
    simp only [List.forall_mem_cons]
    tauto
  | _ => simp [head, argumentsFrom]

theorem scoped_iff_arguments (term : Term) :
    term.Scoped fits depth ↔
      term.head.Scoped fits depth ∧ ∀ argument ∈ term.arguments, argument.2.Scoped fits depth := by
  simpa [arguments] using scoped_iff_argumentsFrom [] term

/-- Applying a scoped term to scoped arguments gives a scoped term. -/
theorem Scoped.applyTo {function : Term} {arguments : List (ArgInfo × Term)}
    (functionInScope : function.Scoped fits depth)
    (argumentsInScope : ∀ argument ∈ arguments, argument.2.Scoped fits depth) :
    (function.applyTo arguments).Scoped fits depth := by
  induction arguments generalizing function with
  | nil => exact functionInScope
  | cons first rest ih =>
    exact ih ⟨functionInScope, argumentsInScope first (by simp)⟩
      fun argument present => argumentsInScope argument (by simp [present])

/-! ## Renaming and substitution -/

theorem toList_mapVariables {Env : Type} {enter : Env → Env} {image : Env → Nat → Term}
    {env : Env} :
    ∀ sequence : Phrase .terms,
      (sequence.mapVariables enter image env).toList =
        sequence.toList.map (·.mapVariables enter image env)
  | noTerms => rfl
  | terms first rest => congrArg (_ :: ·) (toList_mapVariables rest)

section Traversal

variable {Env : Type} {enter : Env → Env} {image : Env → Nat → Term}

/-- A traversal that sends the variables of a scope to phrases of another scope sends phrases of
the one scope to phrases of the other. -/
theorem Scoped.mapVariables (related : (depth : Nat) → Env → (depth' : Nat) → Prop)
    (entered : ∀ {depth env depth'}, related depth env depth' →
      related (depth + 1) (enter env) (depth' + 1))
    (images : ∀ {depth env depth'}, related depth env depth' → ∀ index < depth,
      (image env index).Scoped fits depth')
    {env : Env} (inScope : phrase.Scoped fits depth) (start : related depth env depth') :
    (phrase.mapVariables enter image env).Scoped fits depth' := by
  induction phrase generalizing depth depth' env with
  | var index => exact images start index inScope
  | pi name info domain codomain ihDomain ihCodomain =>
    exact ⟨ihDomain inScope.1 start, ihCodomain inScope.2 (entered start)⟩
  | _ => grind [Scoped, Phrase.mapVariables, toList_mapVariables]

/-- Traversals with the same images of the variables in scope have the same results. -/
theorem Below.mapVariables_congr (related : Nat → Env → Env → Prop)
    (entered : ∀ {depth left right}, related depth left right →
      related (depth + 1) (enter left) (enter right))
    (same : ∀ {depth left right}, related depth left right → ∀ index < depth,
      image left index = image right index)
    {left right : Env} (below : phrase.Below depth) (start : related depth left right) :
    phrase.mapVariables enter image left = phrase.mapVariables enter image right := by
  unfold Below at below
  induction phrase generalizing depth left right with
  | var index => exact same start index below
  | pi name info domain codomain ihDomain ihCodomain =>
    exact congrArg₂ (pi name info) (ihDomain below.1 start)
      (ihCodomain below.2 (entered start))
  | _ => grind [Scoped, Phrase.mapVariables]

end Traversal

/-- Renaming the variables of a scope into another scope. -/
theorem Scoped.rename {targets : Nat → Nat} (inScope : phrase.Scoped fits depth)
    (targetsInScope : ∀ index < depth, targets index < depth') :
    (phrase.rename targets).Scoped fits depth' := by
  refine Scoped.mapVariables
    (fun depth targets depth' => ∀ index < depth, targets index < depth') ?_ (fun start => start)
    inScope targetsInScope
  intro depth targets depth' start index bounded
  cases index with
  | zero => exact Nat.succ_pos depth'
  | succ index => exact Nat.succ_lt_succ (start index (Nat.lt_of_succ_lt_succ bounded))

/-- Replacing the variables of a scope by terms of another scope. -/
theorem Scoped.replace {images : Nat → Term} (inScope : phrase.Scoped fits depth)
    (imagesInScope : ∀ index < depth, (images index).Scoped fits depth') :
    (phrase.replace images).Scoped fits depth' := by
  refine Scoped.mapVariables
    (fun depth images depth' => ∀ index < depth, (images index).Scoped fits depth') ?_
    (fun start => start) inScope imagesInScope
  intro depth images depth' start index bounded
  cases index with
  | zero => exact Nat.succ_pos depth'
  | succ index =>
    exact (start index (Nat.lt_of_succ_lt_succ bounded)).rename fun _ => Nat.succ_lt_succ

/-- Only the images of the variables in scope matter. -/
theorem Below.replace_congr {left right : Nat → Term} (below : phrase.Below depth)
    (same : ∀ index < depth, left index = right index) :
    phrase.replace left = phrase.replace right := by
  refine Below.mapVariables_congr
    (fun depth left right => ∀ index < depth, left index = right index) ?_ (fun start => start)
    below same
  intro depth left right start index bounded
  cases index with
  | zero => rfl
  | succ index => exact congrArg (Phrase.rename _) (start index (Nat.lt_of_succ_lt_succ bounded))

/-! ## Operations that may refuse -/

/-- A traversal keeps the length of a sequence. -/
theorem Maps.toList_length (maps : Maps image depth phrase result) :
    result.toList.length = phrase.toList.length := by
  induction maps with
  | @var _ _ term _ => cases term <;> rfl
  | terms _ _ _ ihRest => simp [ihRest]
  | _ => rfl

/-- The result of a traversal under binders is scoped when the images of the variables in scope
are. -/
theorem Maps.scoped_under {source target : Nat}
    (images : ∀ {depth index term}, image depth index term → index < source + depth →
      term.Scoped fits (target + depth))
    (maps : Maps image depth phrase result) (inScope : phrase.Scoped fits (source + depth)) :
    result.Scoped fits (target + depth) := by
  induction maps with
  | var found => exact images found inScope
  | _ => grind [Scoped, Maps.toList_length]

/-- The result of a traversal is scoped when the images of the variables in scope are. -/
theorem Maps.scoped {source target : Nat} (maps : Maps image 0 phrase result)
    (inScope : phrase.Scoped fits source)
    (images : ∀ {depth index term}, image depth index term → index < source + depth →
      term.Scoped fits (target + depth)) :
    result.Scoped fits target :=
  maps.scoped_under images inScope

/-- Lifting brings more variables into scope. -/
theorem Scoped.lift? {shift cutoff : Nat} (inScope : phrase.Scoped fits depth)
    (lifted : phrase.lift? shift cutoff = some result) : result.Scoped fits (depth + shift) := by
  rw [eq_rename_of_lift? lifted]
  refine inScope.rename fun index bounded => ?_
  unfold raised
  split <;> omega

/-- The image of an innermost variable is its argument. -/
theorem assigned_eq_getElem (bounded : index < arguments.length) :
    assigned arguments index = arguments[index] := by
  simp [assigned, bounded]

/-- Substituting all variables of a scope by terms of another one. -/
theorem Scoped.substitute? (inScope : phrase.Scoped fits arguments.length)
    (argumentsInScope : ∀ argument ∈ arguments, argument.Scoped fits depth)
    (substituted : phrase.substitute? arguments = some result) : result.Scoped fits depth := by
  rw [eq_replace_of_substitute? substituted]
  refine inScope.replace fun index bounded => ?_
  rw [assigned_eq_getElem bounded]
  exact argumentsInScope _ (List.getElem_mem bounded)

/-- Instantiating the innermost variable of a scope. -/
theorem Scoped.instantiate? {argument : Term} (inScope : phrase.Scoped fits (depth + 1))
    (argumentInScope : argument.Scoped fits depth)
    (instantiated : phrase.instantiate? argument = some result) : result.Scoped fits depth := by
  rw [eq_replace_of_instantiate? instantiated]
  refine inScope.replace fun index bounded => ?_
  cases index with
  | zero => exact argumentInScope
  | succ index => exact Nat.lt_of_succ_lt_succ bounded

/-- Removing variables from a scope that do not occur. -/
theorem Scoped.strengthen? {count : Nat} (inScope : phrase.Scoped fits (depth + count))
    (strengthened : phrase.strengthen? count = some result) : result.Scoped fits depth := by
  refine (maps_of_traverse_eq_some strengthened).scoped inScope ?_
  intro passed index term found bounded
  simp only [strengthenedVariable?] at found
  split at found
  · split at found
    · exact absurd found (by simp)
    · rw [← Option.some.inj found]
      show index - count < depth + passed
      omega
  · rw [← Option.some.inj found]
    show index < depth + passed
    omega

/-- A phrase that is moved into a placeholder's scope is scoped there. -/
theorem Scoped.invert (inScope : phrase.Scoped fits depth)
    (inverted : Families.invert id pattern phrase = .ok result) :
    result.Scoped fits pattern.length := by
  refine (maps_of_traverse_eq_ok inverted).scoped inScope ?_
  intro passed index term found _
  simp only [invertedVariable] at found
  split at found
  · split at found
    · rename_i position isPosition
      rw [← Except.ok.inj found]
      have bounded : position < pattern.length := (List.idxOf?_eq_some_iff.1 isPosition).1
      show position + passed < pattern.length + passed
      omega
    · exact absurd found (by simp)
  · rw [← Except.ok.inj found]
    show index < pattern.length + passed
    omega

/-- A phrase that was moved into a placeholder's scope is found again under the arguments. -/
theorem replace_of_invert (inverted : Families.invert id pattern phrase = .ok result) :
    result.replace (assigned (pattern.map .var)) = phrase := by
  refine Maps.mapVariables_eq (ReplacesUnder (assigned (pattern.map .var)))
    (fun replaces => replaces.succ) ?_ (maps_of_traverse_eq_ok inverted) (ReplacesUnder.zero _)
  intro depth inner replaces index term found
  simp only [invertedVariable] at found
  split at found
  · rename_i outside
    split at found
    · rename_i position isPosition
      obtain ⟨bounded, isVariable, _⟩ := List.idxOf?_eq_some_iff.1 isPosition
      rw [← Except.ok.inj found]
      show inner (position + depth) = var index
      rw [replaces, if_neg (by omega), Nat.add_sub_cancel,
        assigned_eq_getElem (by simpa using bounded), List.getElem_map]
      show var (pattern[position] + depth) = var index
      rw [isVariable, Nat.sub_add_cancel outside]
    · exact absurd found (by simp)
  · rename_i inside
    rw [← Except.ok.inj found]
    show inner index = var index
    rw [replaces, if_pos (by omega)]

end Phrase
end Families
