import Families.Conversion.Assignment
import Families.Proofs.Outcome

/-!
# Renaming and substitution without bounds

The operations on the variables of a phrase refuse indices that are no words.  Whenever they
succeed they agree with two operations that never refuse: renaming, which sends variables to
variables, and substitution, which sends variables to terms.  The laws of these two are proved
here, once for all categories of phrases.
-/

namespace Families

variable {category : Category} {depth : Nat} {phrase result : Phrase category}

namespace Phrase

variable {category : Category}

/-! ## Results of a traversal -/

/-- The result is the phrase, which stands under `depth` binders, with each of its variables
replaced by an image. -/
inductive Maps (image : (depth index : Nat) → Term → Prop) :
    {category : Category} → (depth : Nat) → Phrase category → Phrase category → Prop where
  | var {depth index : Nat} {term : Term} :
      image depth index term → Maps image depth (.var index) term
  | const {depth : Nat} {path : Path} : Maps image depth (.const path) (.const path)
  | app {depth : Nat} {function function' argument argument' : Term} {info : ArgInfo} :
      Maps image depth function function' → Maps image depth argument argument' →
      Maps image depth (.app function argument info) (.app function' argument' info)
  | pi {depth : Nat} {name : Name} {info : ArgInfo} {domain domain' codomain codomain' : Ty} :
      Maps image depth domain domain' → Maps image (depth + 1) codomain codomain' →
      Maps image depth (.pi name info domain codomain) (.pi name info domain' codomain')
  | univ {depth : Nat} {sort sort' : Universe} :
      Maps image depth sort sort' → Maps image depth (.univ sort) (.univ sort')
  | level {depth : Nat} {bound bound' : Level} :
      Maps image depth bound bound' → Maps image depth (.level bound) (.level bound')
  | placeholder {depth id : Nat} {arguments arguments' : Phrase .terms} :
      Maps image depth arguments arguments' →
      Maps image depth (.placeholder id arguments) (.placeholder id arguments')
  | classified {depth : Nat} {sort sort' : Universe} {term term' : Term} :
      Maps image depth sort sort' → Maps image depth term term' →
      Maps image depth (.classified sort term) (.classified sort' term')
  | prop {depth : Nat} : Maps image depth .prop .prop
  | set {depth : Nat} {bound bound' : Level} :
      Maps image depth bound bound' → Maps image depth (.set bound) (.set bound')
  | sizeUniv {depth : Nat} : Maps image depth .sizeUniv .sizeUniv
  | omega {depth : Nat} : Maps image depth .omega .omega
  | sortPlaceholder {depth id : Nat} {arguments arguments' : Phrase .terms} :
      Maps image depth arguments arguments' →
      Maps image depth (.sortPlaceholder id arguments) (.sortPlaceholder id arguments')
  | lub {depth constant : Nat} {atoms atoms' : Phrase .atoms} :
      Maps image depth atoms atoms' → Maps image depth (.lub constant atoms) (.lub constant atoms')
  | noAtoms {depth : Nat} : Maps image depth .noAtoms .noAtoms
  | atom {depth offset : Nat} {term term' : Term} {rest rest' : Phrase .atoms} :
      Maps image depth term term' → Maps image depth rest rest' →
      Maps image depth (.atom term offset rest) (.atom term' offset rest')
  | noTerms {depth : Nat} : Maps image depth .noTerms .noTerms
  | terms {depth : Nat} {first first' : Term} {rest rest' : Phrase .terms} :
      Maps image depth first first' → Maps image depth rest rest' →
      Maps image depth (.terms first rest) (.terms first' rest')

/-- A traversal that may refuse replaces variables by their images. -/
theorem maps_of_traverse_eq_some {image : (depth index : Nat) → Option Term}
    (traversed : phrase.traverse image depth = some result) :
    Maps (fun depth index term => image depth index = some term) depth phrase result := by
  induction phrase generalizing depth with
  | var index => exact .var traversed
  | _ =>
    simp only [traverse, Option.bind_eq_bind, Option.bind_eq_some_iff, Option.pure_def,
      Option.some.injEq] at traversed
    grind [Maps]

/-- A traversal that may fail replaces variables by their images. -/
theorem maps_of_traverse_eq_ok {ε : Type} {image : (depth index : Nat) → Except ε Term}
    (traversed : phrase.traverse image depth = .ok result) :
    Maps (fun depth index term => image depth index = .ok term) depth phrase result := by
  induction phrase generalizing depth with
  | var index => exact .var traversed
  | _ =>
    simp only [traverse, bind_eq_ok_iff, pure_eq_ok_iff] at traversed
    grind [Maps]

/-! ## Traversals that never refuse -/

/-- Rebuilds a phrase, sending each of its variables to its image.  The image depends on an
environment, which changes at every binder on the way. -/
def mapVariables {Env : Type} (enter : Env → Env) (image : Env → Nat → Term) :
    {category : Category} → Env → Phrase category → Phrase category
  | _, env, var index => image env index
  | _, _, const path => const path
  | _, env, app function argument info =>
    app (function.mapVariables enter image env) (argument.mapVariables enter image env) info
  | _, env, pi name info domain codomain =>
    pi name info (domain.mapVariables enter image env)
      (codomain.mapVariables enter image (enter env))
  | _, env, univ sort => univ (sort.mapVariables enter image env)
  | _, env, level bound => level (bound.mapVariables enter image env)
  | _, env, placeholder id arguments => placeholder id (arguments.mapVariables enter image env)
  | _, env, classified sort term =>
    classified (sort.mapVariables enter image env) (term.mapVariables enter image env)
  | _, _, prop => prop
  | _, env, set bound => set (bound.mapVariables enter image env)
  | _, _, sizeUniv => sizeUniv
  | _, _, omega => omega
  | _, env, sortPlaceholder id arguments =>
    sortPlaceholder id (arguments.mapVariables enter image env)
  | _, env, lub constant atoms => lub constant (atoms.mapVariables enter image env)
  | _, _, noAtoms => noAtoms
  | _, env, atom term offset rest =>
    atom (term.mapVariables enter image env) offset (rest.mapVariables enter image env)
  | _, _, noTerms => noTerms
  | _, env, terms first rest =>
    terms (first.mapVariables enter image env) (rest.mapVariables enter image env)

attribute [local simp] mapVariables

section Fusion

variable {First Second Third : Type}
variable {enterFirst : First → First} {imageFirst : First → Nat → Term}
variable {enterSecond : Second → Second} {imageSecond : Second → Nat → Term}
variable {enterThird : Third → Third} {imageThird : Third → Nat → Term}

/-- Two traversals in a row are one traversal, if they are on every variable. -/
theorem mapVariables_mapVariables (related : First → Second → Third → Prop)
    (entered : ∀ {first second third}, related first second third →
      related (enterFirst first) (enterSecond second) (enterThird third))
    (images : ∀ {first second third}, related first second third → ∀ index,
      (imageFirst first index).mapVariables enterSecond imageSecond second =
        imageThird third index)
    {first : First} {second : Second} {third : Third} (phrase : Phrase category)
    (start : related first second third) :
    (phrase.mapVariables enterFirst imageFirst first).mapVariables enterSecond imageSecond second =
      phrase.mapVariables enterThird imageThird third := by
  induction phrase generalizing first second third with
  | var index => exact images start index
  | pi name info domain codomain ihDomain ihCodomain =>
    simp only [mapVariables]
    rw [ihDomain start, ihCodomain (entered start)]
  | _ => grind [mapVariables]

end Fusion

/-- A renaming under one more binder, whose own variable stays. -/
def underBinder (targets : Nat → Nat) : Nat → Nat
  | 0 => 0
  | index + 1 => targets index + 1

/-- Renames the variables of a phrase. -/
def rename (targets : Nat → Nat) (phrase : Phrase category) : Phrase category :=
  phrase.mapVariables underBinder (fun targets index => var (targets index)) targets

/-- A substitution under one more binder, whose own variable stays. -/
def up (images : Nat → Term) : Nat → Term
  | 0 => var 0
  | index + 1 => (images index).rename (· + 1)

/-- Replaces the variables of a phrase by terms. -/
def replace (images : Nat → Term) (phrase : Phrase category) : Phrase category :=
  phrase.mapVariables up (fun images index => images index) images

/-! ## The laws of renaming and substitution -/

/-- Renaming twice is renaming once. -/
theorem rename_rename (first second : Nat → Nat) (phrase : Phrase category) :
    (phrase.rename first).rename second = phrase.rename fun index => second (first index) := by
  refine mapVariables_mapVariables
    (fun first second third => ∀ index, third index = second (first index)) ?_ ?_ phrase
    fun _ => rfl
  · intro first second third composed index
    cases index with
    | zero => rfl
    | succ index => simp [underBinder, composed]
  · intro first second third composed index
    simp [mapVariables, composed]

/-- Renaming before a substitution picks the images of the new variables. -/
theorem replace_rename (targets : Nat → Nat) (images : Nat → Term) (phrase : Phrase category) :
    (phrase.rename targets).replace images = phrase.replace fun index =>
    images (targets index) := by
  refine mapVariables_mapVariables
    (fun targets images composite => ∀ index, composite index = images (targets index)) ?_ ?_ phrase
    fun _ => rfl
  · intro targets images composite composed index
    cases index with
    | zero => rfl
    | succ index => simp [underBinder, up, composed]
  · intro targets images composite composed index
    simp [mapVariables, composed]

/-- Renaming after a substitution renames the images. -/
theorem rename_replace (images : Nat → Term) (targets : Nat → Nat) (phrase : Phrase category) :
    (phrase.replace images).rename targets =
      phrase.replace fun index => (images index).rename targets := by
  refine mapVariables_mapVariables
    (fun images targets composite => ∀ index, composite index = (images index).rename targets)
    ?_ ?_ phrase fun _ => rfl
  · intro images targets composite composed index
    cases index with
    | zero => rfl
    | succ index =>
      simp only [up, composed, rename_rename]
      rfl
  · intro images targets composite composed index
    exact (composed index).symm

/-- Substituting twice is substituting once. -/
theorem replace_replace (first second : Nat → Term) (phrase : Phrase category) :
    (phrase.replace first).replace second =
      phrase.replace fun index => (first index).replace second := by
  refine mapVariables_mapVariables
    (fun first second third => ∀ index, third index = (first index).replace second) ?_ ?_ phrase
    fun _ => rfl
  · intro first second third composed index
    cases index with
    | zero => rfl
    | succ index =>
      simp only [up, composed, replace_rename, rename_replace]
  · intro first second third composed index
    exact (composed index).symm

/-- A substitution of every variable by itself changes nothing. -/
theorem replace_eq_self {images : Nat → Term} (phrase : Phrase category)
    (same : ∀ index, images index = var index) : phrase.replace images = phrase := by
  unfold replace
  induction phrase generalizing images with
  | var index => exact same index
  | pi name info domain codomain ihDomain ihCodomain =>
    have sameUnder : ∀ index, up images index = var index := by
      intro index
      cases index with
      | zero => rfl
      | succ index => simp [up, same, rename, mapVariables]
    exact congrArg₂ (pi name info) (ihDomain same) (ihCodomain sameUnder)
  | _ => grind [mapVariables]

/-- Renaming is the substitution of variables by variables. -/
theorem rename_eq_replace (targets : Nat → Nat) (phrase : Phrase category) :
    phrase.rename targets = phrase.replace fun index => var (targets index) := by
  have unchanged : (phrase.rename targets).replace var = phrase.rename targets :=
    replace_eq_self _ fun _ => rfl
  rw [← unchanged, replace_rename]

/-- A renaming of every variable to itself changes nothing. -/
theorem rename_eq_self {targets : Nat → Nat} (phrase : Phrase category)
    (same : ∀ index, targets index = index) : phrase.rename targets = phrase := by
  rw [rename_eq_replace]
  exact replace_eq_self phrase fun index => congrArg var (same index)

/-! ## Traversals that may refuse, compared with those that never do -/

section Comparison

variable {Env : Type} {enter : Env → Env} {image : Env → Nat → Term}
variable {images : (depth index : Nat) → Term → Prop}

/-- The result of a traversal is that of one that never refuses and has the same images. -/
theorem Maps.eq_mapVariables (related : Nat → Env → Prop)
    (entered : ∀ {depth env}, related depth env → related (depth + 1) (enter env))
    (same : ∀ {depth env}, related depth env → ∀ {index term},
      images depth index term → term = image env index)
    {env : Env} (maps : Maps images depth phrase result) (start : related depth env) :
    result = phrase.mapVariables enter image env := by
  induction maps generalizing env with
  | var found => exact same start found
  | pi _ _ ihDomain ihCodomain =>
    exact congrArg₂ (Phrase.pi _ _) (ihDomain start) (ihCodomain (entered start))
  | _ => grind [mapVariables]

/-- A traversal is undone by one that sends each image back to its variable. -/
theorem Maps.mapVariables_eq (related : Nat → Env → Prop)
    (entered : ∀ {depth env}, related depth env → related (depth + 1) (enter env))
    (undone : ∀ {depth env}, related depth env → ∀ {index term},
      images depth index term → term.mapVariables enter image env = .var index)
    {env : Env} (maps : Maps images depth phrase result) (start : related depth env) :
    result.mapVariables enter image env = phrase := by
  induction maps generalizing env with
  | var found => exact undone start found
  | pi _ _ ihDomain ihCodomain =>
    exact congrArg₂ (Phrase.pi _ _) (ihDomain start) (ihCodomain (entered start))
  | _ => grind [mapVariables]

end Comparison

/-- The environment of a renaming under `depth` binders. -/
def RenamesUnder (targets : Nat → Nat) (depth : Nat) (inner : Nat → Nat) : Prop :=
  ∀ index, inner index = if index < depth then index else targets (index - depth) + depth

/-- The environment of a substitution under `depth` binders. -/
def ReplacesUnder (images : Nat → Term) (depth : Nat) (inner : Nat → Term) : Prop :=
  ∀ index, inner index =
    if index < depth then var index else (images (index - depth)).rename (· + depth)

theorem RenamesUnder.zero (targets : Nat → Nat) : RenamesUnder targets 0 targets := by
  intro index
  simp

theorem RenamesUnder.succ {targets inner : Nat → Nat} (renames : RenamesUnder targets depth inner) :
    RenamesUnder targets (depth + 1) (underBinder inner) := by
  intro index
  cases index with
  | zero => simp [underBinder]
  | succ index =>
    simp only [underBinder, renames index, Nat.add_lt_add_iff_right, Nat.add_sub_add_right]
    split <;> omega

theorem ReplacesUnder.zero (images : Nat → Term) : ReplacesUnder images 0 images := by
  intro index
  simp [rename_eq_self]

theorem ReplacesUnder.succ {images inner : Nat → Term}
    (replaces : ReplacesUnder images depth inner) :
    ReplacesUnder images (depth + 1) (up inner) := by
  intro index
  cases index with
  | zero => simp [up]
  | succ index =>
    simp only [up, replaces index, Nat.add_lt_add_iff_right, Nat.add_sub_add_right]
    split
    · rfl
    · rw [rename_rename]
      rfl

/-- The renaming that moves everything from `cutoff` on under `shift` new binders. -/
def raised (shift cutoff index : Nat) : Nat :=
  if cutoff ≤ index then index + shift else index

/-- Lifting renames. -/
theorem eq_rename_of_lift? {shift cutoff : Nat} (lifted : phrase.lift? shift cutoff = some result) :
    result = phrase.rename (raised shift cutoff) := by
  simp only [lift?] at lifted
  split at lifted
  · rename_i noShift
    rw [rename_eq_self phrase fun index => by simp [raised, noShift]]
    exact (Option.some.inj lifted).symm
  · refine Maps.eq_mapVariables (RenamesUnder (raised shift cutoff)) (fun h => h.succ) ?_
      (maps_of_traverse_eq_some lifted) (RenamesUnder.zero _)
    intro depth inner renames index term found
    rw [renames index]
    simp only [liftedVariable?, Option.bind_eq_bind, Option.bind_eq_some_iff,
      word?_eq_some_iff] at found
    obtain ⟨bound, ⟨_, rfl⟩, found⟩ := found
    simp only [raised]
    split at found
    · simp only [Option.bind_eq_some_iff, word?_eq_some_iff, Option.pure_def,
        Option.some.injEq] at found
      obtain ⟨_, ⟨_, rfl⟩, rfl⟩ := found
      rw [if_neg (by omega), if_pos (by omega)]
      exact congrArg var (by omega)
    · simp only [Option.pure_def, Option.some.injEq] at found
      split
      · exact found.symm
      · rw [if_neg (by omega), ← found]
        exact congrArg var (by omega)

/-- Lifting everything renames everything. -/
theorem eq_rename_of_lift?_zero {shift : Nat} (lifted : phrase.lift? shift 0 = some result) :
    result = phrase.rename (· + shift) := by
  rw [eq_rename_of_lift? lifted]
  rfl

/-- The substitution of the innermost variables by terms, which lowers the variables beyond. -/
def assigned (arguments : List Term) (index : Nat) : Term :=
  match arguments[index]? with
  | some argument => argument
  | none => var (index - arguments.length)

/-- Substituting the innermost variables together is a substitution. -/
theorem eq_replace_of_substitute? {arguments : List Term}
    (substituted : phrase.substitute? arguments = some result) :
    result = phrase.replace (assigned arguments) := by
  refine Maps.eq_mapVariables (ReplacesUnder (assigned arguments))
    (fun replaces => replaces.succ) ?_
    (maps_of_traverse_eq_some substituted) (ReplacesUnder.zero _)
  intro depth inner replaces index term found
  rw [replaces index]
  simp only [substitutedVariable?, assigned] at found ⊢
  split at found
  · rw [if_neg (by omega)]
    cases argumentFound : arguments[index - depth]? with
    | some argument =>
      simp only [argumentFound] at found
      exact eq_rename_of_lift?_zero found
    | none =>
      simp only [argumentFound, Option.some.injEq] at found
      have beyond := List.getElem?_eq_none_iff.1 argumentFound
      have lowered : index - arguments.length = index - depth - arguments.length + depth := by
        omega
      rw [← found]
      exact congrArg var lowered
  · rw [if_pos (by omega)]
    exact (Option.some.inj found).symm

/-- Instantiation is the substitution of a single term. -/
theorem instantiate?_eq_substitute? (phrase : Phrase category) (argument : Term) :
    phrase.instantiate? argument = phrase.substitute? [argument] := by
  unfold instantiate? substitute?
  congr 1
  funext depth index
  simp only [instantiatedVariable?, substitutedVariable?]
  rcases Nat.lt_trichotomy index depth with inside | rfl | beyond
  · simp [show ¬depth ≤ index by omega, show ¬index = depth by omega, show ¬depth < index by omega]
  · simp
  · obtain ⟨rest, rfl⟩ := Nat.exists_eq_add_of_lt beyond
    simp [show depth ≤ depth + rest + 1 by omega, show ¬depth + rest + 1 = depth by omega,
      show depth + rest + 1 - depth = rest + 1 by omega, beyond]

/-- Instantiating the innermost variable is a substitution. -/
theorem eq_replace_of_instantiate? {argument : Term}
    (instantiated : phrase.instantiate? argument = some result) :
    result = phrase.replace (assigned [argument]) :=
  eq_replace_of_substitute? (instantiate?_eq_substitute? phrase argument ▸ instantiated)

end Phrase
end Families
