import Families.Proofs.Additions
import Families.Proofs.Ground

/-!
# Normal forms that persist

A renaming that keeps the order of the variables keeps the order of phrases, and so it keeps levels
canonical and turns normal forms into normal forms.  Whoever adds datatypes and constructors to the
declarations adds nothing that unfolds, so what was rewritten before is rewritten afterwards too.
A normal form without placeholders stays one, whatever is solved.
-/

namespace Families

variable {term next : Term}

/-! ## The order of renamed phrases -/

namespace Phrase

variable {category : Category} {targets : Nat → Nat}

theorem strictMono_underBinder (increasing : StrictMono targets) :
    StrictMono (underBinder targets) := by
  intro left right smaller
  cases right with
  | zero => exact absurd smaller (Nat.not_lt_zero left)
  | succ right =>
    cases left with
    | zero => exact Nat.succ_pos _
    | succ left => exact Nat.succ_lt_succ (increasing (Nat.lt_of_succ_lt_succ smaller))

theorem compare_strictMono (increasing : StrictMono targets) (left right : Nat) :
    compare (targets left) (targets right) = compare left right := by
  rcases Nat.lt_trichotomy left right with smaller | rfl | larger
  · rw [Nat.compare_eq_lt.2 smaller, Nat.compare_eq_lt.2 (increasing smaller)]
  · rw [Nat.compare_eq_eq.2 rfl, Nat.compare_eq_eq.2 rfl]
  · rw [Nat.compare_eq_gt.2 larger, Nat.compare_eq_gt.2 (increasing larger)]

/-- Lists are compared by what follows only if they begin alike. -/
theorem compare_cons_congr {left right : Nat} {lefts rights lefts' rights' : List Nat}
    (rests : left = right → compare lefts' rights' = compare lefts rights) :
    compare (left :: lefts') (right :: rights') = compare (left :: lefts) (right :: rights) := by
  rw [List.compare_cons_cons, List.compare_cons_cons]
  by_cases same : left = right
  · rw [rests same]
  · cases order : compare left right with
    | eq => exact absurd (Nat.compare_eq_eq.1 order) same
    | _ => rfl

/-- A renaming that keeps the order of variables keeps the order of keys, whatever follows. -/
theorem compare_key_rename (increasing : StrictMono targets) (left right : Phrase category)
    {lefts rights lefts' rights' : List Nat}
    (rests : compare lefts' rights' = compare lefts rights) :
    compare ((left.rename targets).key ++ lefts') ((right.rename targets).key ++ rights') =
      compare (left.key ++ lefts) (right.key ++ rights) := by
  unfold rename
  induction left generalizing targets lefts rights lefts' rights' with
  | var index =>
    cases right with
    | var other =>
      simp only [mapVariables, key, List.cons_append, List.nil_append, List.compare_cons_cons,
        compare_strictMono increasing, rests]
    | _ => exact compare_cons_congr (by simp)
  | app function argument info ihFunction ihArgument =>
    cases right with
    | app =>
      simp only [mapVariables, key, List.cons_append, List.append_assoc, List.nil_append]
      refine compare_cons_congr fun _ => ihFunction increasing _ ?_
      refine ihArgument increasing _ ?_
      exact compare_cons_congr fun _ => compare_cons_congr fun _ => rests
    | _ => exact compare_cons_congr (by simp)
  | pi name info domain codomain ihDomain ihCodomain =>
    cases right with
    | pi =>
      simp only [mapVariables, key, List.cons_append, List.append_assoc]
      refine compare_cons_congr fun _ => compare_cons_congr fun _ => compare_cons_congr fun _ =>
        compare_cons_congr fun _ => ihDomain increasing _ ?_
      exact ihCodomain (strictMono_underBinder increasing) _ rests
    | _ => exact compare_cons_congr (by simp)
  | classified sort term ihSort ihTerm =>
    cases right with
    | classified =>
      simp only [mapVariables, key, List.append_assoc]
      exact ihSort increasing _ (ihTerm increasing _ rests)
  | atom term offset rest ihTerm ihRest =>
    cases right with
    | atom =>
      simp only [mapVariables, key, List.cons_append, List.append_assoc]
      refine compare_cons_congr fun _ => ihTerm increasing _ ?_
      exact compare_cons_congr fun _ => ihRest increasing _ rests
    | _ => exact compare_cons_congr (by simp)
  | terms first rest ihFirst ihRest =>
    cases right with
    | terms =>
      simp only [mapVariables, key, List.cons_append, List.append_assoc]
      exact compare_cons_congr fun _ => ihFirst increasing _
        (ihRest increasing _ rests)
    | _ => exact compare_cons_congr (by simp)
  | univ sort ih =>
    cases right with
    | univ => exact compare_cons_congr fun _ => ih increasing _ rests
    | _ => exact compare_cons_congr (by simp)
  | level bound ih =>
    cases right with
    | level => exact compare_cons_congr fun _ => ih increasing _ rests
    | _ => exact compare_cons_congr (by simp)
  | set bound ih =>
    cases right with
    | set => exact compare_cons_congr fun _ => ih increasing _ rests
    | _ => exact compare_cons_congr (by simp)
  | placeholder id arguments ih =>
    cases right with
    | placeholder =>
      exact compare_cons_congr fun _ => compare_cons_congr fun _ =>
        ih increasing _ rests
    | _ => exact compare_cons_congr (by simp)
  | sortPlaceholder id arguments ih =>
    cases right with
    | sortPlaceholder =>
      exact compare_cons_congr fun _ => compare_cons_congr fun _ =>
        ih increasing _ rests
    | _ => exact compare_cons_congr (by simp)
  | lub constant atoms ih =>
    cases right with
    | lub => exact compare_cons_congr fun _ => ih increasing _ rests
  | const path =>
    cases right with
    | const => exact compare_cons_congr fun _ => compare_cons_congr fun _ => rests
    | _ => exact compare_cons_congr (by simp)
  | prop | sizeUniv | omega | noAtoms | noTerms =>
    cases right <;> exact compare_cons_congr (by simp [rests])

theorem compare_rename (increasing : StrictMono targets) (left right : Phrase category) :
    compare (left.rename targets) (right.rename targets) = compare left right := by
  have keys := compare_key_rename increasing left right (rfl : compare ([] : List Nat) [] = _)
  rw [List.append_nil, List.append_nil, List.append_nil, List.append_nil] at keys
  exact keys

theorem isLevel_rename : (term.rename targets).IsLevel ↔ term.IsLevel := by
  cases term <;> exact Iff.rfl

end Phrase

namespace Level

variable {targets : Nat → Nat} {level : Level}

theorem atoms_rename (targets : Nat → Nat) :
    ∀ level : Level, atoms (level.rename targets) =
      (atoms level).map fun atom => ⟨atom.term.rename targets, atom.offset⟩
  | .lub _ atoms => Phrase.atomList_rename targets atoms

theorem constant_rename (targets : Nat → Nat) :
    ∀ level : Level, constant (level.rename targets) = constant level
  | .lub _ _ => rfl

/-- Levels stay canonical under a renaming that keeps the order of variables. -/
theorem Canonical.rename (canonical : Canonical level) (increasing : StrictMono targets) :
    Canonical (level.rename targets) := by
  rw [Canonical, atoms_rename, constant_rename]
  constructor
  · refine List.pairwise_map.2 (canonical.1.imp fun smaller => ?_)
    simpa only [Phrase.compare_rename increasing] using smaller
  · refine canonical.2.imp_right fun above atom present => ?_
    obtain ⟨source, sourcePresent, rfl⟩ := List.mem_map.1 present
    exact above source sourcePresent

theorem Flat.rename (flat : Flat level) (targets : Nat → Nat) : Flat (level.rename targets) := by
  intro term present
  rw [terms_rename] at present
  obtain ⟨source, sourcePresent, rfl⟩ := List.mem_map.1 present
  exact fun isLevel => flat source sourcePresent (Phrase.isLevel_rename.1 isLevel)

end Level

/-! ## Renamed normal forms -/

section Renaming

variable {state : State} {category : Category} {targets : Nat → Nat}

/-- A step of a renamed term is a step of the term. -/
theorem Unfolds.of_rename (unfolds : Unfolds state (term.rename targets) next) :
    ∃ next, Unfolds state term next := by
  generalize isRenamed : term.rename targets = renamed at unfolds
  induction unfolds generalizing term with
  | placeholder solved below =>
    cases term with
    | placeholder id arguments =>
      obtain ⟨rfl, rfl⟩ := Phrase.placeholder.inj isRenamed
      rw [← Phrase.rename, Phrase.toList_rename, List.length_map] at below
      exact ⟨_, .placeholder solved below⟩
    | _ => cases isRenamed
  | @function path arity body renamed found below isConst full =>
    subst isRenamed
    rw [Phrase.arguments_rename, List.length_map] at full
    rw [Phrase.head_rename] at isConst
    cases isHead : term.head with
    | const other =>
      rw [isHead] at isConst
      obtain rfl := Phrase.const.inj isConst
      exact ⟨_, .function found below isHead full⟩
    | _ =>
      rw [isHead] at isConst
      cases isConst
  | app _ ih =>
    cases term with
    | app function argument info =>
      obtain ⟨rfl, rfl, rfl⟩ := Phrase.app.inj isRenamed
      obtain ⟨next, unfolds⟩ := ih rfl
      exact ⟨_, unfolds.app⟩
    | _ => cases isRenamed

theorem Stuck.rename {phrase : Phrase category} (stuck : Stuck state phrase) (targets : Nat → Nat) :
    Stuck state (phrase.rename targets) := by
  have terms : ∀ {term : Term}, (∀ next, ¬Unfolds state term next) →
      ∀ next, ¬Unfolds state (term.rename targets) next := by
    intro term stuck next unfolds
    obtain ⟨next, unfolds⟩ := unfolds.of_rename
    exact stuck next unfolds
  cases phrase with
  | var | const | app | pi | placeholder => exact terms stuck
  | _ => exact stuck

/-- A renamed phrase has a normal form too.  It is the renamed normal form if the order of variables
is kept. -/
theorem HasNormalForm.exists_rename {phrase result : Phrase category}
    (hasNormalForm : HasNormalForm state phrase result) (targets : Nat → Nat) :
    ∃ renamed, HasNormalForm state (phrase.rename targets) renamed ∧
      (StrictMono targets → renamed = result.rename targets) := by
  induction hasNormalForm generalizing targets with
  | step unfolds _ ih =>
    obtain ⟨_, hasRenamed, same⟩ := ih targets
    exact ⟨_, .step (unfolds.rename targets) hasRenamed, same⟩
  | @sortStep id arguments solution result solved below _ ih =>
    obtain ⟨_, hasRenamed, same⟩ := ih targets
    rw [below.rename_replace_assigned, ← Phrase.toList_rename] at hasRenamed
    have belowRenamed : solution.Below (arguments.rename targets).toList.length := by
      rwa [Phrase.toList_rename, List.length_map]
    exact ⟨_, .sortStep solved belowRenamed hasRenamed, same⟩
  | @atomic _ phrase isAtomic stuck =>
    refine ⟨_, .atomic ?_ (stuck.rename targets), fun _ => rfl⟩
    cases phrase <;> first | exact isAtomic.elim | trivial
  | app stuck _ _ ihFunction ihArgument =>
    obtain ⟨_, hasFunction, function⟩ := ihFunction targets
    obtain ⟨_, hasArgument, argument⟩ := ihArgument targets
    refine ⟨_, .app (stuck.rename targets) hasFunction hasArgument, fun increasing => ?_⟩
    rw [function increasing, argument increasing]
    rfl
  | pi _ _ ihDomain ihCodomain =>
    obtain ⟨_, hasDomain, domain⟩ := ihDomain targets
    obtain ⟨_, hasCodomain, codomain⟩ := ihCodomain (Phrase.underBinder targets)
    refine ⟨_, .pi hasDomain hasCodomain, fun increasing => ?_⟩
    rw [domain increasing, codomain (Phrase.strictMono_underBinder increasing)]
    rfl
  | univ _ ih =>
    obtain ⟨_, hasRenamed, same⟩ := ih targets
    exact ⟨_, .univ hasRenamed, fun increasing => congrArg Phrase.univ (same increasing)⟩
  | level _ ih =>
    obtain ⟨_, hasRenamed, same⟩ := ih targets
    exact ⟨_, .level hasRenamed, fun increasing => congrArg Phrase.level (same increasing)⟩
  | placeholder stuck _ ih =>
    obtain ⟨_, hasRenamed, same⟩ := ih targets
    exact ⟨_, .placeholder (stuck.rename targets) hasRenamed,
      fun increasing => congrArg (Phrase.placeholder _) (same increasing)⟩
  | classified _ _ ihSort ihTerm =>
    obtain ⟨_, hasSort, sort⟩ := ihSort targets
    obtain ⟨_, hasTerm, term⟩ := ihTerm targets
    refine ⟨_, .classified hasSort hasTerm, fun increasing => ?_⟩
    rw [sort increasing, term increasing]
    rfl
  | set _ ih =>
    obtain ⟨_, hasRenamed, same⟩ := ih targets
    exact ⟨_, .set hasRenamed, fun increasing => congrArg Phrase.set (same increasing)⟩
  | sortPlaceholder stuck _ ih =>
    obtain ⟨_, hasRenamed, same⟩ := ih targets
    exact ⟨_, .sortPlaceholder stuck hasRenamed,
      fun increasing => congrArg (Phrase.sortPlaceholder _) (same increasing)⟩
  | @lub constant atoms atoms' bound _ canonical flat value ih =>
    obtain ⟨renamed, hasRenamed, same⟩ := ih targets
    by_cases increasing : StrictMono targets
    · obtain rfl := same increasing
      refine ⟨_, .lub hasRenamed (canonical.rename increasing) (flat.rename targets) ?_,
        fun _ => rfl⟩
      intro valuation
      have together : (Phrase.lub constant (atoms'.rename targets)) =
          (Phrase.lub constant atoms').rename targets := rfl
      rw [together, Phrase.rename_eq_replace, Phrase.rename_eq_replace, Phrase.deepEval_replace,
        Phrase.deepEval_replace, value]
    · obtain ⟨_, canonical, flattens⟩ := Level.exists_flattens (Phrase.lub constant renamed)
      exact ⟨_, .lub hasRenamed canonical flattens.flat flattens.value, (absurd · increasing)⟩
  | atom _ _ ihTerm ihRest =>
    obtain ⟨_, hasTerm, term⟩ := ihTerm targets
    obtain ⟨_, hasRest, rest⟩ := ihRest targets
    refine ⟨_, .atom hasTerm hasRest, fun increasing => ?_⟩
    rw [term increasing, rest increasing]
    rfl
  | terms _ _ ihFirst ihRest =>
    obtain ⟨_, hasFirst, first⟩ := ihFirst targets
    obtain ⟨_, hasRest, rest⟩ := ihRest targets
    refine ⟨_, .terms hasFirst hasRest, fun increasing => ?_⟩
    rw [first increasing, rest increasing]
    rfl

/-- Normal forms stay normal under a renaming that keeps the order of variables. -/
theorem HasNormalForm.rename {phrase result : Phrase category}
    (hasNormalForm : HasNormalForm state phrase result) (increasing : StrictMono targets) :
    HasNormalForm state (phrase.rename targets) (result.rename targets) := by
  obtain ⟨_, hasRenamed, same⟩ := hasNormalForm.exists_rename targets
  exact same increasing ▸ hasRenamed

end Renaming

/-! ## Later states -/

namespace State

/-- Placeholders may have been solved and comparisons postponed, and declarations may have been
added, but no functions. -/
structure Advances (before after : State) : Prop where
  remembers : before.Remembers after
  body : ∀ path, after.signature.body? path = before.signature.body? path

variable {before after : State}

theorem Advances.refl (state : State) : state.Advances state :=
  ⟨.refl state, fun _ => rfl⟩

theorem Advances.trans {first second third : State} (earlier : first.Advances second)
    (later : second.Advances third) : first.Advances third :=
  ⟨earlier.remembers.trans later.remembers,
    fun path => (later.body path).trans (earlier.body path)⟩

theorem Grows.advances (grows : before.Grows after) : before.Advances after :=
  ⟨grows.remembers, fun _ => congrArg (Signature.body? · _) grows.signature⟩

theorem Advances.resolves (advances : before.Advances after) : before.Resolves after :=
  ⟨fun _ _ => advances.remembers.solution?, advances.body⟩

/-- Nothing was postponed on the way if nothing was postponed in the end. -/
theorem Remembers.constraints_eq {first second third fourth : State}
    (earlier : first.Remembers second) (between : second.Remembers third)
    (later : third.Remembers fourth) (same : fourth.constraints = first.constraints) :
    third.constraints = second.constraints := by
  have shorter : third.constraints.length ≤ second.constraints.length :=
    later.constraints.length_le.trans (same ▸ earlier.constraints.length_le)
  exact (between.constraints.eq_of_length_le shorter).symm

end State

section Later

variable {state later : State} {category : Category} {phrase phrase' result : Phrase category}

theorem Stuck.of_resolves (stuck : Stuck state phrase) (resolves : later.Resolves state) :
    Stuck later phrase := by
  have terms : ∀ {term : Term}, (∀ next, ¬Unfolds state term next) →
      ∀ next, ¬Unfolds later term next :=
    fun stuck next unfolds => stuck next (unfolds.mono resolves.retains)
  cases phrase with
  | var | const | app | pi | placeholder => exact terms stuck
  | sortPlaceholder id arguments =>
    exact fun solution solved => stuck solution (resolves.solution id _ solved)
  | _ => exact stuck

/-- Normal forms depend on the solutions and the functions alone. -/
theorem HasNormalForm.of_resolves (hasNormalForm : HasNormalForm state phrase result)
    (resolves : state.Resolves later) (back : later.Resolves state) :
    HasNormalForm later phrase result := by
  induction hasNormalForm with
  | step unfolds _ ih => exact .step (unfolds.mono resolves.retains) ih
  | sortStep solved below _ ih => exact .sortStep (resolves.solution _ _ solved) below ih
  | atomic isAtomic stuck => exact .atomic isAtomic (stuck.of_resolves back)
  | app stuck _ _ ihFunction ihArgument =>
    exact .app (stuck.of_resolves back) ihFunction ihArgument
  | placeholder stuck _ ih => exact .placeholder (stuck.of_resolves back) ih
  | sortPlaceholder stuck _ ih => exact .sortPlaceholder (stuck.of_resolves back) ih
  | lub _ canonical flat value ih => exact .lub ih canonical flat value
  | pi _ _ ihDomain ihCodomain => exact .pi ihDomain ihCodomain
  | univ _ ih => exact .univ ih
  | level _ ih => exact .level ih
  | classified _ _ ihSort ihTerm => exact .classified ihSort ihTerm
  | set _ ih => exact .set ih
  | atom _ _ ihTerm ihRest => exact .atom ihTerm ihRest
  | terms _ _ ihFirst ihRest => exact .terms ihFirst ihRest

/-- What a phrase was rewritten to has its normal form in later states too. -/
theorem HasNormalForm.of_rewrites_of_advances (hasNormalForm : HasNormalForm later phrase result)
    (advances : state.Advances later) (rewrites : Rewrites state phrase phrase') :
    HasNormalForm later phrase' result :=
  hasNormalForm.of_rewrites (rewrites.mono advances.resolves.retains)

/-! ## Phrases that keep their normal forms -/

variable {depth : Nat}

/-- Without a placeholder at the head, only the bodies of functions matter for a step. -/
theorem Unfolds.of_body?_eq {term next : Term} (unfolds : Unfolds later term next)
    (bodies : ∀ path, later.signature.body? path = state.signature.body? path)
    (rigid : ConvM.isPlaceholder term.head = false) : Unfolds state term next := by
  induction unfolds with
  | placeholder => cases rigid
  | function found below isConst full =>
    exact .function ((bodies _).symm.trans found) below isConst full
  | app _ ih => exact .app (ih rigid)

/-- A normal phrase without placeholders is its own normal form, whatever is solved. -/
theorem IsNormal.hasNormalForm_self {category : Category} {phrase : Phrase category}
    (isNormal : IsNormal state phrase) (inScope : phrase.Scoped (fun _ _ _ => False) depth)
    (bodies : ∀ path, later.signature.body? path = state.signature.body? path) :
    HasNormalForm later phrase phrase := by
  have stuck : ∀ {term : Term} {depth : Nat}, unfoldHead? state term = .ok none →
      term.Scoped (fun _ _ _ => False) depth → ∀ next, ¬Unfolds later term next := by
    intro term depth stops inScope next unfolds
    have headInScope := ((Phrase.scoped_iff_arguments term).1 inScope).1
    exact not_unfolds_of_unfoldHead? stops next
      (unfolds.of_body?_eq bodies (Phrase.Ground.isPlaceholder ⟨_, headInScope⟩))
  induction phrase generalizing depth with
  | var => exact .atomic trivial fun _ unfolds => by simpa [Phrase.head] using unfolds.head_eq
  | const => exact .atomic trivial (stuck isNormal inScope)
  | app _ _ _ ihFunction ihArgument =>
    exact .app (stuck isNormal.1 inScope) (ihFunction isNormal.2.1 inScope.1)
      (ihArgument isNormal.2.2 inScope.2)
  | pi _ _ _ _ ihDomain ihCodomain =>
    exact .pi (ihDomain isNormal.1 inScope.1) (ihCodomain isNormal.2 inScope.2)
  | univ _ ih => exact .univ (ih isNormal inScope)
  | level _ ih => exact .level (ih isNormal inScope)
  | placeholder | sortPlaceholder => exact inScope.1.elim
  | classified _ _ ihSort ihTerm =>
    exact .classified (ihSort isNormal.1 inScope.1) (ihTerm isNormal.2 inScope.2)
  | set _ ih => exact .set (ih isNormal inScope)
  | lub constant atoms ih =>
    refine .lub (ih isNormal.2.2 inScope) isNormal.1 ?_ fun _ => rfl
    intro term present
    obtain ⟨atom, atomPresent, rfl⟩ := List.mem_map.1 present
    exact isNormal.2.1 atom atomPresent
  | atom _ _ _ ihTerm ihRest =>
    exact .atom (ihTerm isNormal.1 inScope.1) (ihRest isNormal.2 inScope.2)
  | terms _ _ ihFirst ihRest =>
    exact .terms (ihFirst isNormal.1 inScope.1) (ihRest isNormal.2 inScope.2)
  | _ => exact .atomic trivial trivial

/-- A normal form without placeholders stays the normal form, whatever is solved. -/
theorem eq_of_ground_normal {fuel : Nat} {category : Category}
    {phrase normal result : Phrase category} (wellScoped : state.WellScoped)
    (inScope : phrase.Scoped state.Fits depth)
    (normalised : normalise state fuel phrase = .ok normal) (ground : normal.Ground)
    (grows : state.Grows later) (hasNormalForm : HasNormalForm later phrase result) :
    normal = result := by
  obtain ⟨normalises, normalInScope⟩ := normalises_of_normalise wellScoped normalised inScope
  obtain ⟨_, groundInScope⟩ := ground
  have self : HasNormalForm later normal normal :=
    normalises.isNormal.hasNormalForm_self groundInScope grows.advances.body
  exact self.deterministic (hasNormalForm.of_rewrites
    (normalises.rewrites.mono grows.resolves.retains))

/-- The head and the arguments of a term without a step at its head have the normal forms that its
normal form consists of. -/
theorem HasNormalForm.spine_of_stuck {state : State} :
    ∀ {term normal : Term}, (∀ next, ¬Unfolds state term next) → HasNormalForm state term normal →
      HasNormalForm state term.head normal.head ∧
        List.Forall₂ (fun argument normal => HasNormalForm state argument.2 normal.2)
          term.arguments normal.arguments
  | .app function argument info, _, stuck, hasNormalForm => by
    obtain ⟨_, _, rfl, hasFunction, hasArgument⟩ := hasNormalForm.app_cases stuck
    obtain ⟨hasHead, hasArguments⟩ :=
      hasFunction.spine_of_stuck fun _ unfolds => stuck _ unfolds.app
    rw [Phrase.arguments_app, Phrase.arguments_app]
    exact ⟨hasHead, List.rel_append hasArguments (.cons hasArgument .nil)⟩
  | .var _, _, stuck, hasNormalForm | .const _, _, stuck, hasNormalForm
  | .pi _ _ _ _, _, stuck, hasNormalForm | .univ _, _, stuck, hasNormalForm
  | .level _, _, stuck, hasNormalForm | .placeholder _ _, _, stuck, hasNormalForm => by
    have whole := hasNormalForm
    cases hasNormalForm with
    | step unfolds _ => exact absurd unfolds (stuck _)
    | _ => exact ⟨whole, .nil⟩

end Later

end Families
