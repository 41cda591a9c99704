import Families.Proofs.Evaluation

/-!
# Parallel steps

A phrase takes steps at its head and in its parts at once.  What reduction and normalisation do is a
sequence of such steps.  They can be renamed and substituted, they remain possible when more
placeholders are solved, and they can be postponed after a step at the head.
-/

namespace Families

variable {later : State} {category : Category} {arity : Nat} {path : Path}
variable {body next term term' : Term} {phrase result : Phrase category}

namespace Phrase

variable {category : Category}

/-! ## Renaming -/

theorem head_rename (targets : Nat → Nat) :
    ∀ term : Term, (term.rename targets).head = term.head.rename targets
  | app function _ _ => head_rename targets function
  | var _ | const _ | pi _ _ _ _ | univ _ | level _ | placeholder _ _ => rfl

theorem arguments_rename (targets : Nat → Nat) :
    ∀ term : Term, (term.rename targets).arguments =
      term.arguments.map fun argument => (argument.1, argument.2.rename targets)
  | app function argument info => by
    have renamed : (app function argument info).rename targets =
        app (function.rename targets) (argument.rename targets) info := rfl
    rw [renamed, arguments_app, arguments_app, arguments_rename targets function]
    simp
  | var _ | const _ | pi _ _ _ _ | univ _ | level _ | placeholder _ _ => rfl

theorem toList_rename (targets : Nat → Nat) (sequence : Phrase .terms) :
    (sequence.rename targets).toList = sequence.toList.map (·.rename targets) :=
  toList_mapVariables sequence

theorem atomList_rename (targets : Nat → Nat) :
    ∀ atoms : Phrase .atoms, (atoms.rename targets).atomList =
      atoms.atomList.map fun atom => ⟨atom.term.rename targets, atom.offset⟩
  | noAtoms => rfl
  | atom _ _ rest => congrArg (_ :: ·) (atomList_rename targets rest)

/-! ## Substitution -/

theorem replace_applyTo (images : Nat → Term) (function : Term)
    (arguments : List (ArgInfo × Term)) :
    (function.applyTo arguments).replace images =
      (function.replace images).applyTo
        (arguments.map fun argument => (argument.1, argument.2.replace images)) := by
  induction arguments generalizing function with
  | nil => rfl
  | cons first rest ih => exact ih (.app function first.2 first.1)

/-- A substitution changes the arguments of a declaration only. -/
theorem replace_of_const (isConst : term.head = .const path) (images : Nat → Term) :
    (term.replace images).head = .const path ∧
      (term.replace images).arguments =
        term.arguments.map fun argument => (argument.1, argument.2.replace images) := by
  have applied := replace_applyTo images term.head term.arguments
  rw [applyTo_arguments, isConst] at applied
  rw [applied]
  exact ⟨head_applyTo _ _, arguments_applyTo _ _⟩

theorem toList_replace (images : Nat → Term) (sequence : Phrase .terms) :
    (sequence.replace images).toList = sequence.toList.map (·.replace images) :=
  toList_mapVariables sequence

/-- A substitution of all variables of a scope is followed by another one in its terms. -/
theorem Below.replace_replace_assigned {arguments : List Term} {phrase : Phrase category}
    (below : phrase.Below arguments.length) (images : Nat → Term) :
    (phrase.replace (assigned arguments)).replace images =
      phrase.replace (assigned (arguments.map (·.replace images))) := by
  rw [replace_replace]
  apply below.replace_congr
  intro index bounded
  simp [assigned, bounded]

/-- A substitution of all variables of a scope, renamed, substitutes the renamed terms. -/
theorem Below.rename_replace_assigned {arguments : List Term} {phrase : Phrase category}
    (below : phrase.Below arguments.length) (targets : Nat → Nat) :
    (phrase.replace (assigned arguments)).rename targets =
      phrase.replace (assigned (arguments.map (·.rename targets))) := by
  simp only [rename_eq_replace]
  exact below.replace_replace_assigned _

theorem deepEval_replace (images : Nat → Term) (value : Term → Nat) (phrase : Phrase category) :
    (phrase.replace images).deepEval value =
      phrase.deepEval fun leaf => (leaf.replace images).deepEval value := by
  unfold replace
  induction phrase generalizing images with
  | level bound ih => exact ih images
  | lub constant atoms ih =>
    exact congrArg (max constant) (ih images)
  | atom term offset rest ihTerm ihRest =>
    rw [mapVariables, deepEval, deepEval, ihTerm, ihRest]
  | _ => rfl

/-- A substitution replaces a leaf by the leaves of its image. -/
theorem mem_leaves_replace {leaf : Term} (images : Nat → Term) (phrase : Phrase category) :
    leaf ∈ (phrase.replace images).leaves ↔
      ∃ leaf' ∈ phrase.leaves, leaf ∈ (leaf'.replace images).leaves := by
  unfold replace
  induction phrase generalizing images with
  | level bound ih => exact ih images
  | lub constant atoms ih => exact ih images
  | atom term offset rest ihTerm ihRest =>
    simp only [mapVariables, leaves, List.mem_append, ihTerm, ihRest, or_and_right,
      exists_or]
  | _ => simp [mapVariables, leaves]

end Phrase

namespace Level

theorem terms_rename (targets : Nat → Nat) :
    ∀ level : Level, terms (level.rename targets) = (terms level).map (·.rename targets)
  | .lub constant atoms => by
    show (atoms.rename targets).atomList.map Atom.term = _
    rw [Phrase.atomList_rename]
    simp [terms, Level.atoms]

theorem Regroups.replace {level : Level} (regroups : Regroups phrase level) (images : Nat → Term) :
    Regroups (phrase.replace images) (level.replace images) where
  value value := by
    rw [Phrase.deepEval_replace, Phrase.deepEval_replace, regroups.value]
  leaves leaf := by
    rw [Phrase.mem_leaves_replace, Phrase.mem_leaves_replace]
    exact exists_congr fun leaf' => and_congr_left fun _ => regroups.leaves leaf'

end Level

/-! ## Steps at the head -/

variable {state : State}

/-- A function without all its arguments has no step. -/
theorem not_unfolds_of_length_lt (found : state.signature.body? path = some (arity, body))
    (isConst : term.head = .const path) (missing : term.arguments.length < arity) :
    ¬Unfolds state term next := by
  intro unfolds
  rcases unfolds.head_cases with ⟨id, arguments, solution, isPlaceholder, _⟩ |
    ⟨path', arity', body', isConst', found', enough⟩
  · simp [isConst] at isPlaceholder
  · obtain rfl : path = path' := by simpa [isConst] using isConst'
    obtain ⟨rfl, rfl⟩ : arity = arity' ∧ body = body' := by simpa [found] using found'
    omega

/-- A function with exactly its arguments has no step without the last of them. -/
theorem not_unfolds_of_full {function argument : Term} {info : ArgInfo}
    (found : state.signature.body? path = some (arity, body))
    (isConst : (Phrase.app function argument info).head = .const path)
    (full : (Phrase.app function argument info).arguments.length = arity) :
    ¬Unfolds state function next := by
  refine not_unfolds_of_length_lt found isConst ?_
  rw [← full, Phrase.arguments_app, List.length_append, List.length_singleton]
  exact Nat.lt_succ_self _

/-- A step at the head is the only one. -/
theorem Unfolds.deterministic {left right : Term} (unfoldsLeft : Unfolds state term left)
    (unfoldsRight : Unfolds state term right) : left = right := by
  induction unfoldsLeft generalizing right with
  | placeholder solved below =>
    cases unfoldsRight with
    | placeholder solved' below' =>
      obtain rfl : _ = _ := by simpa [solved] using solved'
      rfl
    | function found below isConst full => simp [Phrase.head] at isConst
  | @function path arity body term found below isConst full =>
    cases unfoldsRight with
    | placeholder solved below => simp [Phrase.head] at isConst
    | function found' below' isConst' full' =>
      obtain rfl : path = _ := by simpa [isConst] using isConst'
      obtain ⟨rfl, rfl⟩ : arity = _ ∧ body = _ := by simpa [found] using found'
      rfl
    | app unfolds => exact absurd unfolds (not_unfolds_of_full found isConst full)
  | app unfolds ih =>
    cases unfoldsRight with
    | function found below isConst full =>
      exact absurd unfolds (not_unfolds_of_full found isConst full)
    | app unfolds' => rw [ih unfolds']

theorem Unfolds.replace (unfolds : Unfolds state term next) (images : Nat → Term) :
    Unfolds state (term.replace images) (next.replace images) := by
  induction unfolds with
  | @placeholder id arguments solution solved below =>
    rw [below.replace_replace_assigned, ← Phrase.toList_replace]
    have belowReplaced : solution.Below (arguments.replace images).toList.length := by
      rwa [Phrase.toList_replace, List.length_map]
    exact .placeholder solved belowReplaced
  | @function path arity body term found below isConst full =>
    obtain ⟨isConst', replaced⟩ := Phrase.replace_of_const isConst images
    have full' : (term.replace images).arguments.length = arity := by
      rw [replaced, List.length_map, full]
    have below' : body.Below (term.arguments.reverse.map (·.2)).length := by
      rwa [List.length_map, List.length_reverse, full]
    have step := Unfolds.function found below isConst' full'
    rw [below'.replace_replace_assigned]
    rw [replaced] at step
    simpa [Function.comp_def] using step
  | app unfolds ih => exact .app ih

theorem Unfolds.rename (unfolds : Unfolds state term next) (targets : Nat → Nat) :
    Unfolds state (term.rename targets) (next.rename targets) := by
  simp only [Phrase.rename_eq_replace]
  exact unfolds.replace _

namespace State

variable {before after : State}

/-- Solutions and functions are still there. -/
structure Retains (before after : State) : Prop where
  solution : ∀ id solution, before.solution? id = some solution →
    after.solution? id = some solution
  body : ∀ path body, before.signature.body? path = some body →
    after.signature.body? path = some body

/-- Solutions are still there, and the functions are the same. -/
structure Resolves (before after : State) : Prop where
  solution : ∀ id solution, before.solution? id = some solution →
    after.solution? id = some solution
  body : ∀ path, after.signature.body? path = before.signature.body? path

theorem Grows.resolves (grows : before.Grows after) : before.Resolves after :=
  ⟨fun _ _ => grows.solution?, fun _ => congrArg (Signature.body? · _) grows.signature⟩

theorem Resolves.trans {first second third : State} (earlier : first.Resolves second)
    (later : second.Resolves third) : first.Resolves third :=
  ⟨fun id solution => later.solution id solution ∘ earlier.solution id solution,
    fun path => (later.body path).trans (earlier.body path)⟩

theorem Resolves.retains (resolves : before.Resolves after) : before.Retains after :=
  ⟨resolves.solution, fun path _ found => (resolves.body path).trans found⟩

end State

/-- A step that is possible stays possible. -/
theorem Unfolds.mono (unfolds : Unfolds state term next) (retains : state.Retains later) :
    Unfolds later term next := by
  induction unfolds with
  | placeholder solved below => exact .placeholder (retains.solution _ _ solved) below
  | function found below isConst full =>
    exact .function (retains.body _ _ found) below isConst full
  | app unfolds ih => exact .app ih

/-- Only a placeholder at the head can make a new step possible when more is known. -/
theorem Unfolds.of_resolves (unfolds : Unfolds later term next) (resolves : state.Resolves later)
    (noPlaceholder : ∀ id arguments, term.head ≠ .placeholder id arguments) :
    Unfolds state term next := by
  induction unfolds with
  | placeholder _ _ => exact absurd rfl (noPlaceholder _ _)
  | function found below isConst full =>
    exact .function ((resolves.body _).symm.trans found) below isConst full
  | app _ ih => exact .app (ih noPlaceholder)

/-! ## Steps everywhere -/

/-- The phrase takes steps at its head and in its parts, or takes levels among the terms of a level
apart. -/
inductive Parallel (state : State) :
    {category : Category} → Phrase category → Phrase category → Prop where
  | app {function function' argument argument' : Term} {info : ArgInfo} :
      Parallel state function function' → Parallel state argument argument' →
      Parallel state (.app function argument info) (.app function' argument' info)
  | pi {name : Name} {info : ArgInfo} {domain domain' codomain codomain' : Ty} :
      Parallel state domain domain' → Parallel state codomain codomain' →
      Parallel state (.pi name info domain codomain) (.pi name info domain' codomain')
  | univ {sort sort' : Universe} :
      Parallel state sort sort' → Parallel state (.univ sort) (.univ sort')
  | level {bound bound' : Level} :
      Parallel state bound bound' → Parallel state (.level bound) (.level bound')
  | placeholder {id : Nat} {arguments arguments' : Phrase .terms} :
      Parallel state arguments arguments' →
      Parallel state (.placeholder id arguments) (.placeholder id arguments')
  | classified {sort sort' : Universe} {term term' : Term} :
      Parallel state sort sort' → Parallel state term term' →
      Parallel state (.classified sort term) (.classified sort' term')
  | set {bound bound' : Level} :
      Parallel state bound bound' → Parallel state (.set bound) (.set bound')
  | sortPlaceholder {id : Nat} {arguments arguments' : Phrase .terms} :
      Parallel state arguments arguments' →
      Parallel state (.sortPlaceholder id arguments) (.sortPlaceholder id arguments')
  | lub {constant : Nat} {atoms atoms' : Phrase .atoms} :
      Parallel state atoms atoms' → Parallel state (.lub constant atoms) (.lub constant atoms')
  | atom {term term' : Term} {offset : Nat} {rest rest' : Phrase .atoms} :
      Parallel state term term' → Parallel state rest rest' →
      Parallel state (.atom term offset rest) (.atom term' offset rest')
  | terms {first first' : Term} {rest rest' : Phrase .terms} :
      Parallel state first first' → Parallel state rest rest' →
      Parallel state (.terms first rest) (.terms first' rest')
  | atomic {category : Category} {phrase : Phrase category} :
      phrase.IsAtomic → Parallel state phrase phrase
  | step {term next result : Term} :
      Unfolds state term next → Parallel state next result → Parallel state term result
  | sortStep {id : Nat} {arguments : Phrase .terms} {solution result : Universe} :
      state.solution? id = some (.sort solution) →
      solution.Below arguments.toList.length →
      Parallel state (solution.replace (Phrase.assigned arguments.toList)) result →
      Parallel state (.sortPlaceholder id arguments) result
  | regroup {constant : Nat} {atoms atoms' : Phrase .atoms} {joined : Level} :
      Parallel state atoms atoms' →
      Level.Regroups (Phrase.lub constant atoms') joined →
      Parallel state (.lub constant atoms) joined

namespace Parallel

variable {category : Category}

theorem refl (phrase : Phrase category) : Parallel state phrase phrase := by
  induction phrase with
  | var | const | prop | sizeUniv | omega | noAtoms | noTerms => exact .atomic trivial
  | _ => constructor <;> assumption

theorem mono (parallel : Parallel state phrase result) (retains : state.Retains later) :
    Parallel later phrase result := by
  induction parallel with
  | step unfolds _ ih => exact .step (unfolds.mono retains) ih
  | sortStep solved below _ ih =>
    exact .sortStep (retains.solution _ _ solved) below ih
  | regroup _ regroups ih => exact .regroup ih regroups
  | atomic isAtomic => exact .atomic isAtomic
  | _ => constructor <;> assumption

/-- The instance of a phrase takes the steps that the phrase takes. -/
theorem replace_phrase (parallel : Parallel state phrase result) (images : Nat → Term) :
    Parallel state (phrase.replace images) (result.replace images) := by
  induction parallel generalizing images with
  | step unfolds _ ih =>
    exact .step (unfolds.replace images) (ih images)
  | @sortStep id arguments solution result solved below _ ih =>
    have replaced := ih images
    rw [below.replace_replace_assigned, ← Phrase.toList_replace] at replaced
    have belowReplaced : solution.Below (arguments.replace images).toList.length := by
      rwa [Phrase.toList_replace, List.length_map]
    exact .sortStep solved belowReplaced replaced
  | regroup _ regroups ih =>
    exact .regroup (ih images) (regroups.replace images)
  | atomic isAtomic => exact .refl _
  | pi _ _ ihDomain ihCodomain =>
    exact .pi (ihDomain images) (ihCodomain (Phrase.up images))
  | app _ _ ihFunction ihArgument =>
    exact .app (ihFunction images) (ihArgument images)
  | univ _ ih => exact .univ (ih images)
  | level _ ih => exact .level (ih images)
  | placeholder _ ih => exact .placeholder (ih images)
  | classified _ _ ihSort ihTerm =>
    exact .classified (ihSort images) (ihTerm images)
  | set _ ih => exact .set (ih images)
  | sortPlaceholder _ ih => exact .sortPlaceholder (ih images)
  | lub _ ih => exact .lub (ih images)
  | atom _ _ ihTerm ihRest =>
    exact .atom (ihTerm images) (ihRest images)
  | terms _ _ ihFirst ihRest =>
    exact .terms (ihFirst images) (ihRest images)

theorem rename (parallel : Parallel state phrase result) (targets : Nat → Nat) :
    Parallel state (phrase.rename targets) (result.rename targets) := by
  simp only [Phrase.rename_eq_replace]
  exact parallel.replace_phrase _

/-- Steps in the terms that are substituted are steps of the result. -/
theorem replace {images images' : Nat → Term} (phrase : Phrase category)
    (parallel : ∀ index, Parallel state (images index) (images' index)) :
    Parallel state (phrase.replace images) (phrase.replace images') := by
  unfold Phrase.replace
  induction phrase generalizing images images' with
  | var index => exact parallel index
  | pi name info domain codomain ihDomain ihCodomain =>
    refine .pi (ihDomain parallel) (ihCodomain fun index => ?_)
    cases index with
    | zero => exact .atomic trivial
    | succ index => exact (parallel index).rename (· + 1)
  | const | prop | sizeUniv | omega | noAtoms | noTerms => exact .atomic trivial
  | _ => constructor <;> apply_assumption <;> exact parallel

/-! ## Steps and the head -/

/-- Steps in a sequence are steps of each of its terms. -/
theorem forall₂_toList :
    ∀ {sequence sequence' : Phrase .terms}, Parallel state sequence sequence' →
      List.Forall₂ (Parallel state) sequence.toList sequence'.toList
  | .noTerms, _, parallel => by
    cases parallel
    exact .nil
  | .terms first rest, _, parallel => by
    cases parallel with
    | terms firstParallel restParallel => exact .cons firstParallel (forall₂_toList restParallel)
    | atomic isAtomic => exact isAtomic.elim

/-- Steps in the terms for the innermost variables are steps of the result. -/
theorem replace_assigned {arguments arguments' : List Term} (phrase : Phrase category)
    (parallel : List.Forall₂ (Parallel state) arguments arguments') :
    Parallel state (phrase.replace (Phrase.assigned arguments))
      (phrase.replace (Phrase.assigned arguments')) := by
  refine replace phrase fun index => ?_
  unfold Phrase.assigned
  induction parallel generalizing index with
  | nil => exact .refl _
  | cons first rest ih =>
    cases index with
    | zero => exact first
    | succ index => simpa using ih index

/-- The declaration at the head stays, and the steps are taken in the arguments. -/
structure KeepsSpine (state : State) (term term' : Term) : Prop where
  /-- A declaration at the head stays, and none is found there that was not there before. -/
  head : ∀ path, term.head = .const path ↔ term'.head = .const path
  /-- The arguments take steps. -/
  arguments : List.Forall₂ (Parallel state) (term.arguments.map (·.2)) (term'.arguments.map (·.2))

theorem KeepsSpine.length_eq (keepsSpine : KeepsSpine state term term') :
    term.arguments.length = term'.arguments.length := by
  simpa using keepsSpine.arguments.length_eq

theorem KeepsSpine.app {function function' argument argument' : Term} {info : ArgInfo}
    (keepsSpine : KeepsSpine state function function')
    (parallel : Parallel state argument argument') :
    KeepsSpine state (.app function argument info) (.app function' argument' info) where
  head := keepsSpine.head
  arguments := by
    rw [Phrase.arguments_app, Phrase.arguments_app, List.map_append, List.map_append]
    exact List.rel_append keepsSpine.arguments (.cons parallel .nil)

/-- Without a step at its head, a term keeps its spine. -/
theorem keepsSpine :
    ∀ {term term' : Term}, (∀ next, ¬Unfolds state term next) → Parallel state term term' →
      KeepsSpine state term term'
  | .app function argument info, _, stuck, parallel => by
    cases parallel with
    | app functionParallel argumentParallel =>
      have functionStuck : ∀ next, ¬Unfolds state function next :=
        fun next unfolds => stuck _ unfolds.app
      exact (keepsSpine functionStuck functionParallel).app argumentParallel
    | atomic isAtomic => exact isAtomic.elim
    | step unfolds _ => exact absurd unfolds (stuck _)
  | .var _, _, stuck, parallel | .const _, _, stuck, parallel => by
    cases parallel with
    | atomic _ => exact ⟨fun _ => Iff.rfl, .nil⟩
    | step unfolds _ => exact absurd unfolds (stuck _)
  | .pi _ _ _ _, _, stuck, parallel | .univ _, _, stuck, parallel | .level _, _, stuck, parallel
  | .placeholder _ _, _, stuck, parallel => by
    cases parallel with
    | step unfolds _ => exact absurd unfolds (stuck _)
    | atomic isAtomic => exact isAtomic.elim
    | _ => exact ⟨by simp [Phrase.head], .nil⟩

/-- A function with all its arguments unfolds after steps in these too. -/
theorem KeepsSpine.unfolds (keepsSpine : KeepsSpine state term term')
    (found : state.signature.body? path = some (arity, body)) (below : body.Below arity)
    (isConst : term.head = .const path) (full : term.arguments.length = arity) :
    ∃ next', Unfolds state term' next' ∧
      Parallel state (body.replace (Phrase.assigned (term.arguments.reverse.map (·.2)))) next' := by
  refine ⟨_, .function found below ((keepsSpine.head path).1 isConst)
    (keepsSpine.length_eq.symm.trans full), replace_assigned body ?_⟩
  rw [List.map_reverse, List.map_reverse]
  exact List.rel_reverse keepsSpine.arguments

/-- Without a step at its head, a term does not get one. -/
theorem not_unfolds {next' : Term} (stuck : ∀ next, ¬Unfolds state term next)
    (parallel : Parallel state term term') : ¬Unfolds state term' next' := by
  intro unfolds
  induction unfolds generalizing term with
  | placeholder solved below =>
    cases parallel with
    | placeholder argumentsParallel =>
      rw [← (forall₂_toList argumentsParallel).length_eq] at below
      exact stuck _ (.placeholder solved below)
    | atomic isAtomic => exact isAtomic
    | step unfolds _ => exact stuck _ unfolds
  | function found below isConst full =>
    have keepsSpine := keepsSpine stuck parallel
    exact stuck _ (.function found below ((keepsSpine.head _).2 isConst)
      (keepsSpine.length_eq.trans full))
  | app unfolds ih =>
    cases parallel with
    | app functionParallel argumentParallel =>
      exact ih (fun next unfolds => stuck _ unfolds.app) functionParallel
    | atomic isAtomic => exact isAtomic
    | step unfolds _ => exact stuck _ unfolds

/-- A step at the head is among the steps taken, or is still possible after them. -/
theorem strip {result : Term} (unfolds : Unfolds state term next)
    (parallel : Parallel state term result) :
    Parallel state next result ∨ ∃ next', Unfolds state result next' ∧
      Parallel state next next' := by
  induction unfolds generalizing result with
  | @placeholder id arguments solution solved below =>
    cases parallel with
    | placeholder argumentsParallel =>
      have listParallel := forall₂_toList argumentsParallel
      rw [listParallel.length_eq] at below
      exact .inr ⟨_, .placeholder solved below, replace_assigned solution listParallel⟩
    | atomic isAtomic => exact isAtomic.elim
    | step unfolds parallel =>
      obtain rfl := unfolds.deterministic (.placeholder solved below)
      exact .inl parallel
  | @function path arity body term found below isConst full =>
    have unfolds := Unfolds.function found below isConst full
    cases parallel with
    | atomic _ => exact .inr ⟨_, unfolds, .refl _⟩
    | step unfolds' parallel =>
      obtain rfl := unfolds'.deterministic unfolds
      exact .inl parallel
    | app functionParallel argumentParallel =>
      have keepsSpine := keepsSpine (fun _ => not_unfolds_of_full found isConst full)
        functionParallel
      exact .inr ((keepsSpine.app argumentParallel).unfolds found below isConst full)
    | _ => simp [Phrase.head] at isConst
  | app unfolds ih =>
    cases parallel with
    | app functionParallel argumentParallel =>
      rcases ih functionParallel with done | ⟨next', unfolds', parallel⟩
      · exact .inl (.app done argumentParallel)
      · exact .inr ⟨_, unfolds'.app, .app parallel argumentParallel⟩
    | atomic isAtomic => exact isAtomic.elim
    | step unfolds' parallel =>
      obtain rfl := unfolds'.deterministic unfolds.app
      exact .inl parallel

/-- Steps in the terms of atoms. -/
theorem mapAtoms {change : Term → Term} :
    ∀ {atoms : Phrase .atoms},
      (∀ atom ∈ atoms.atomList, Parallel state atom.term (change atom.term)) →
      Parallel state atoms (atoms.mapAtoms change)
  | .noAtoms, _ => .atomic trivial
  | .atom _ _ _, parallel =>
    .atom (parallel _ List.mem_cons_self)
      (mapAtoms fun atom present => parallel atom (List.mem_cons_of_mem _ present))

end Parallel

/-! ## Many steps -/

variable {category : Category}

/-- The phrase takes steps again and again. -/
def Rewrites (state : State) (phrase result : Phrase category) : Prop :=
  Relation.ReflTransGen (Parallel state) phrase result

namespace Rewrites

theorem trans {first second third : Phrase category} (earlier : Rewrites state first second)
    (later : Rewrites state second third) : Rewrites state first third :=
  Relation.ReflTransGen.trans earlier later

theorem of_parallel (parallel : Parallel state phrase result) : Rewrites state phrase result :=
  .single parallel

theorem mono (rewrites : Rewrites state phrase result) (retains : state.Retains later) :
    Rewrites later phrase result :=
  Relation.ReflTransGen.mono (fun _ _ parallel => parallel.mono retains) _ _ rewrites

/-- Steps of a part are steps of the whole. -/
theorem map {category' : Category} {part part' : Phrase category}
    {whole : Phrase category → Phrase category'} (rewrites : Rewrites state part part')
    (congruent : ∀ {part part'}, Parallel state part part' →
      Parallel state (whole part) (whole part')) :
    Rewrites state (whole part) (whole part') :=
  Relation.ReflTransGen.lift whole (fun _ _ parallel => congruent parallel) _ _ rewrites

/-- Steps of two parts are steps of the whole. -/
theorem map₂ {left right category' : Category} {first first' : Phrase left}
    {second second' : Phrase right} {whole : Phrase left → Phrase right → Phrase category'}
    (rewritesFirst : Rewrites state first first') (rewritesSecond : Rewrites state second second')
    (congruent : ∀ {first first' second second'}, Parallel state first first' →
      Parallel state second second' → Parallel state (whole first second) (whole first' second')) :
    Rewrites state (whole first second) (whole first' second') :=
  (rewritesFirst.map fun parallel => congruent parallel (.refl second)).trans
    (rewritesSecond.map fun parallel => congruent (.refl first') parallel)

/-- Without a step at its head, a term does not get one however often it is rewritten. -/
theorem not_unfolds {term term' : Term} (rewrites : Rewrites state term term')
    (stuck : ∀ next, ¬Unfolds state term next) : ∀ next, ¬Unfolds state term' next := by
  induction rewrites with
  | refl => exact stuck
  | tail _ parallel ih => exact fun _ => parallel.not_unfolds ih

theorem toList_length {sequence sequence' : Phrase .terms}
    (rewrites : Rewrites state sequence sequence') :
    sequence'.toList.length = sequence.toList.length := by
  induction rewrites with
  | refl => rfl
  | tail _ parallel ih => exact parallel.forall₂_toList.length_eq.symm.trans ih

end Rewrites

end Families
