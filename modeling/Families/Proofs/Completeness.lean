import Families.Proofs.Ground
import Families.Proofs.Resemblance

/-!
# Conversion is complete

Where no placeholder occurs, two terms whose normal forms resemble each other and are tame are found
equal, provided that the comparison may recurse deeply enough.  The comparison walks along the two
terms as normalisation does, so a bound that suffices for their normal forms suffices for all that
it reduces, up to the few steps that it takes to compare a term with a level.
-/

namespace Families

open Filter

variable {category : Category} {phrase result : Phrase category} {info : ArgInfo} {state : State}
variable {sort : Universe}

/-! ## Fuel -/

section Normalisation

variable {state : State} {category : Category} {fuel : Nat}

/-- More fuel changes no normal form. -/
theorem normalise_of_le {more : Nat} (normalised : normalise state fuel phrase = .ok result)
    (enough : fuel ≤ more) : normalise state more phrase = .ok result := by
  induction fuel generalizing more category phrase result with
  | zero => cases normalised
  | succ fuel ih =>
    obtain ⟨more, rfl⟩ : ∃ less, more = less + 1 := ⟨more - 1, by omega⟩
    obtain ⟨reduced, isReduced, rebuilds⟩ := normalise_eq_ok_iff.1 normalised
    have enough : fuel ≤ more := by omega
    exact normalise_eq_ok_iff.2 ⟨reduced, reduce_of_le (.refl state) isReduced enough,
      rebuilds.of_parts fun done => ih done enough⟩

/-- More fuel rebuilds no phrase in another way. -/
theorem Rebuilds.of_le {more : Nat} (rebuilds : Rebuilds state fuel phrase result)
    (enough : fuel ≤ more) : Rebuilds state more phrase result :=
  rebuilds.of_parts fun done => normalise_of_le done enough

theorem eventually_reduce (reduced : reduce state fuel phrase = .ok result) :
    ∀ᶠ fuel in atTop, reduce state fuel phrase = .ok result :=
  eventually_atTop.2 ⟨fuel, fun _ enough => reduce_of_le (.refl state) reduced enough⟩

theorem eventually_normalise (normalised : normalise state fuel phrase = .ok result) :
    ∀ᶠ fuel in atTop, normalise state fuel phrase = .ok result :=
  eventually_atTop.2 ⟨fuel, fun _ enough => normalise_of_le normalised enough⟩

/-- What a phrase reduces to has the same normal form. -/
theorem eventually_normalise_reduced {phrase reduced result : Phrase category}
    (isReduced : reduce state fuel phrase = .ok reduced)
    (rebuilds : Rebuilds state fuel reduced result) :
    ∀ᶠ fuel in atTop, normalise state fuel reduced = .ok result := by
  have again : ∀ᶠ more in atTop, reduce state more reduced = .ok reduced :=
    (inert_of_reduce isReduced).eventually_reduce
  refine eventually_of_succ ?_
  filter_upwards [again, eventually_ge_atTop fuel] with more reducedAgain enough
  exact normalise_eq_ok_iff.2 ⟨reduced, reducedAgain, rebuilds.of_le enough⟩

/-! ## The shapes of normal forms -/

theorem Rebuilds.isLevel_iff {term result : Term} (rebuilds : Rebuilds state fuel term result) :
    result.IsLevel ↔ term.IsLevel := by
  cases rebuilds <;> exact Iff.rfl

theorem Rebuilds.eq_of_isAtomic (rebuilds : Rebuilds state fuel phrase result)
    (isAtomic : result.IsAtomic) : phrase = result := by
  cases rebuilds <;> first | rfl | exact isAtomic.elim

theorem reduce_wrapped {term : Term} (noLevel : ¬term.IsLevel)
    (reduced : reduce state fuel term = .ok term) :
    reduce state (fuel + 1) (Level.ofParts 0 [⟨term, 0⟩]) = .ok (Level.ofParts 0 [⟨term, 0⟩]) := by
  have atom : reducedAtom term 0 = .ok (Level.ofParts 0 [⟨term, 0⟩]) := by
    cases term with
    | level => exact absurd trivial noLevel
    | _ => rfl
  simp only [Level.ofParts, Phrase.ofAtoms, reduce, Phrase.atomList_atom, Phrase.atomList_noAtoms,
    List.foldlM_cons, List.foldlM_nil, bind_eq_ok_iff]
  exact ⟨_, ⟨term, reduced, _, atom, rfl⟩, rfl⟩

theorem normalise_wrapped {term result : Term} (enough : 2 ≤ fuel)
    (normalised : normalise state fuel term = .ok result) :
    normalise state (fuel + 1) (.atom term 0 .noAtoms) = .ok (.atom result 0 .noAtoms) := by
  obtain ⟨less, rfl⟩ : ∃ less, fuel = less + 2 := ⟨fuel - 2, by omega⟩
  exact normalise_eq_ok_iff.2 ⟨_, rfl, .atom normalised rfl⟩

/-- The normal form of the term of a type. -/
theorem normalise_term {ty ty' : Ty} (normalised : normalise state fuel ty = .ok ty') :
    normalise state fuel ty.term = .ok ty'.term := by
  cases fuel with
  | zero => cases normalised
  | succ fuel =>
    obtain ⟨reduced, isReduced, rebuilds⟩ := normalise_eq_ok_iff.1 normalised
    cases ty with
    | classified sort term =>
      obtain rfl := (Inert.stops (by trivial)).reduce_eq isReduced
      cases rebuilds with
      | classified _ termNormal => exact normalise_of_le termNormal (Nat.le_succ fuel)

/-- The normal form of the level that a reduced term stands for. -/
theorem eventually_normalise_ofTerm {term reduced result : Term}
    (isReduced : reduce state fuel term = .ok reduced)
    (rebuilds : Rebuilds state fuel reduced result) :
    ∀ᶠ fuel in atTop, normalise state fuel (Level.ofTerm reduced) = .ok (Level.ofTerm result) := by
  by_cases isLevel : reduced.IsLevel
  · cases rebuilds with
    | level normalised => exact eventually_normalise normalised
    | _ => exact isLevel.elim
  · have resultNoLevel := rebuilds.isLevel_iff.not.2 isLevel
    rw [Level.ofTerm_of_not_isLevel isLevel, Level.ofTerm_of_not_isLevel resultNoLevel]
    have again : ∀ᶠ more in atTop, reduce state more reduced = .ok reduced :=
      (inert_of_reduce isReduced).eventually_reduce
    refine eventually_of_succ (eventually_of_succ ?_)
    filter_upwards [again, eventually_normalise_reduced isReduced rebuilds, eventually_ge_atTop 2]
      with more reducedAgain normalised enough
    exact normalise_eq_ok_iff.2 ⟨_, reduce_wrapped isLevel reducedAgain,
      .lub (normalise_wrapped enough normalised)⟩

/-! ## Applications that take no step -/

/-- Where an application takes no step, its function takes none. -/
theorem stops_function {function argument : Term}
    (stops : unfoldHead? state (.app function argument info) = .ok none) :
    unfoldHead? state function = .ok none := by
  obtain ⟨unsolved, fewer⟩ := unfoldHead?_eq_none_iff.1 stops
  refine unfoldHead?_eq_none_iff.2 ⟨unsolved, fun path arity body isConst found => ?_⟩
  have missing := fewer path arity body isConst found
  rw [Phrase.arguments_app, List.length_append] at missing
  omega

/-- Reduction leaves a term that takes no step as it is, except for sorts and levels. -/
theorem reduce_eq_self {term reduced : Term} (stops : unfoldHead? state term = .ok none)
    (noUniverse : ∀ sort, term ≠ .univ sort) (noLevel : ¬term.IsLevel)
    (isReduced : reduce state fuel term = .ok reduced) : reduced = term := by
  have inert : Inert state term := by
    apply Inert.stops
    cases term with
    | univ sort => exact absurd rfl (noUniverse sort)
    | level => exact absurd trivial noLevel
    | _ => exact stops
  exact inert.reduce_eq isReduced

/-- What a term that takes no step reduces to. -/
theorem eq_or_of_stops {term reduced : Term} (stops : unfoldHead? state term = .ok none)
    (isReduced : reduce state fuel term = .ok reduced) :
    reduced = term ∨ (∃ sort sort', term = .univ sort ∧ reduced = .univ sort') ∨
      ∃ bound bound', term = .level bound ∧ reduced = .level bound' := by
  cases fuel with
  | zero => cases isReduced
  | succ fuel =>
    cases term with
    | univ | level =>
      simp only [reduce, bind_eq_ok_iff, pure_eq_ok_iff] at isReduced
      obtain ⟨part, _, rfl⟩ := isReduced
      simp
    | _ => exact .inl (reduce_eq_self stops (by simp) not_false isReduced)

/-- A term that is no application and takes no step does not become an application. -/
theorem head_of_normalise {term result : Term} (noApplication : term.arguments = [])
    (stops : unfoldHead? state term = .ok none)
    (normalised : normalise state fuel term = .ok result) :
    result.head = result ∧ result.arguments = [] := by
  obtain ⟨fuel, reduced, isReduced, rebuilds⟩ := exists_of_normalise normalised
  have noArguments : reduced.arguments = [] := by
    rcases eq_or_of_stops stops isReduced with rfl | ⟨_, _, rfl, rfl⟩ | ⟨_, _, rfl, rfl⟩
    · exact noApplication
    · rfl
    · rfl
  cases rebuilds with
  | app => simp [Phrase.arguments_app] at noArguments
  | _ => exact ⟨rfl, rfl⟩

/-- The head and the arguments of a term that takes no step have the normal forms that its normal
form consists of. -/
theorem spine_of_normalise :
    ∀ {term result : Term} {fuel : Nat}, unfoldHead? state term = .ok none →
      normalise state fuel term = .ok result →
      normalise state fuel term.head = .ok result.head ∧
        List.Forall₂ (fun argument normal => normalise state fuel argument.2 = .ok normal.2)
          term.arguments result.arguments
  | .app function argument info, result, fuel + 1, stops, normalised => by
    obtain ⟨reduced, isReduced, rebuilds⟩ := normalise_eq_ok_iff.1 normalised
    obtain rfl := reduce_eq_self stops (by simp) not_false isReduced
    cases rebuilds with
    | app functionNormal argumentNormal =>
      obtain ⟨headNormal, argumentsNormal⟩ :=
        spine_of_normalise (stops_function stops) functionNormal
      refine ⟨normalise_of_le headNormal (Nat.le_succ fuel), ?_⟩
      rw [Phrase.arguments_app, Phrase.arguments_app]
      have last := normalise_of_le argumentNormal (Nat.le_succ fuel)
      refine List.rel_append (argumentsNormal.imp fun _ _ done => ?_) (.cons last .nil)
      exact normalise_of_le done (Nat.le_succ fuel)
  | .var _, _, _ + 1, stops, normalised | .const _, _, _ + 1, stops, normalised
  | .pi _ _ _ _, _, _ + 1, stops, normalised | .univ _, _, _ + 1, stops, normalised
  | .level _, _, _ + 1, stops, normalised | .placeholder _ _, _, _ + 1, stops, normalised => by
    obtain ⟨isHead, none⟩ := head_of_normalise rfl stops normalised
    rw [isHead, none]
    exact ⟨normalised, .nil⟩

/-- The same for an application that was rebuilt. -/
theorem Rebuilds.spine {function argument result : Term}
    (rebuilds : Rebuilds state fuel (.app function argument info) result)
    (stops : unfoldHead? state (.app function argument info) = .ok none) :
    normalise state fuel function.head = .ok result.head ∧
      List.Forall₂ (fun argument normal => normalise state fuel argument.2 = .ok normal.2)
        (Phrase.app function argument info).arguments result.arguments := by
  cases rebuilds with
  | app functionNormal argumentNormal =>
    obtain ⟨headNormal, argumentsNormal⟩ := spine_of_normalise (stops_function stops) functionNormal
    rw [Phrase.arguments_app, Phrase.arguments_app]
    exact ⟨headNormal, List.rel_append argumentsNormal (.cons argumentNormal .nil)⟩

end Normalisation

/-! ## Comparisons of terms -/

variable {allowed : Set Term}

/-- Tame levels in canonical form with the same essence are the same, if the atoms are told apart by
their essences. -/
theorem Phrase.eq_of_essence_eq {left right : Level} (apart : Set.InjOn essence allowed)
    (same : left.essence = right.essence) (leftTame : left.Tame allowed)
    (rightTame : right.Tame allowed) (leftCanonical : left.IsCanonical)
    (rightCanonical : right.IsCanonical) : left = right := by
  cases left
  cases right
  refine leftCanonical.1.eq_of_deepEval_eq rightCanonical.1 leftCanonical.2 rightCanonical.2 ?_
  intro value
  have : Nonempty Term := ⟨.var 0⟩
  -- The value of an allowed leaf is a function of its essence.
  have valued : ∀ {bound : Level}, bound.Tame allowed → Level.Flat bound →
      bound.deepEval value =
        bound.deepEval fun leaf => value (Function.invFunOn essence allowed leaf.essence) := by
    intro bound tame flat
    apply deepEval_congr
    intro leaf present
    rw [apart.leftInvOn_invFunOn (tame.of_mem_leaves flat present).1]
  rw [valued leftTame leftCanonical.2, valued rightTame rightCanonical.2,
    ← deepEval_essence (fun leaf => value (Function.invFunOn essence allowed leaf)), same,
    deepEval_essence]

/-- The sort is known, and the level in it is in canonical form. -/
def Universe.IsNormal (sort : Universe) : Prop :=
  sort.IsAtomic ∨ ∃ bound, sort = .set bound ∧ bound.IsCanonical

theorem HasNormalForm.isNormal {result : Universe} (hasNormalForm : HasNormalForm state sort result)
    (ground : sort.Ground) : result.IsNormal := by
  cases hasNormalForm with
  | sortStep => exact absurd ground Phrase.not_ground_sortPlaceholder
  | sortPlaceholder => exact absurd ground Phrase.not_ground_sortPlaceholder
  | atomic isAtomic _ => exact .inl isAtomic
  | set hasBound => exact .inr ⟨_, rfl, hasBound.isCanonical⟩

/-- Normal sorts with the same essence are the same. -/
theorem Universe.IsNormal.eq_of_essence_eq {left right : Universe}
    (apart : Set.InjOn Phrase.essence allowed) (leftNormal : left.IsNormal)
    (rightNormal : right.IsNormal) (same : left.essence = right.essence)
    (leftTame : left.Tame allowed) (rightTame : right.Tame allowed) : left = right := by
  have noLevel : ∀ sort : Universe, ¬sort.IsLevel := by
    intro sort
    cases sort <;> exact not_false
  rcases leftNormal with isAtomic | ⟨bound, rfl, canonical⟩
  · exact (isAtomic.eq_of_essence_eq (noLevel right) same).symm
  · rcases rightNormal with isAtomic | ⟨bound', rfl, canonical'⟩
    · exact isAtomic.eq_of_essence_eq (noLevel (.set bound)) same.symm
    · have sameBound : bound.essence = bound'.essence := by simpa [Phrase.essence] using same
      exact congrArg _ (Phrase.eq_of_essence_eq apart sameBound leftTame rightTame canonical
        canonical')

theorem Phrase.Tame.term {ty : Ty} (tame : ty.Tame allowed) : ty.term.Tame allowed := by
  cases ty
  exact tame

theorem Inert.unfoldHead?_app {function argument : Term}
    (inert : Inert state (.app function argument info)) :
    unfoldHead? state (.app function argument info) = .ok none := by
  cases inert with
  | stops stops => exact stops

/-- Reduction of a phrase without placeholders brings none. -/
theorem State.Ground.scoped_reduce {fuel depth : Nat} (ground : state.Ground)
    (wellScoped : state.WellScoped) (inScope : phrase.Scoped (fun _ _ _ => False) depth)
    (reduced : reduce state fuel phrase = .ok result) :
    result.Scoped (fun _ _ _ => False) depth := by
  have resultInScope := (reduces_of_reduce wellScoped reduced
    (inScope.mono False.elim (Nat.le_refl depth))).2
  have resultGround := ground.supplies.reduce reduced ⟨depth, inScope⟩
  exact resultInScope.ground_iff.2 (Phrase.ground_iff.1 resultGround)

theorem State.WellScoped.hasNormalForm_of_ground {fuel depth : Nat} (wellScoped : state.WellScoped)
    (inScope : phrase.Scoped (fun _ _ _ => False) depth)
    (normalised : normalise state fuel phrase = .ok result) : HasNormalForm state phrase result :=
  (normalises_of_normalise wellScoped normalised
    (inScope.mono False.elim (Nat.le_refl depth))).1.hasNormalForm

/-- A relation between normal forms that the comparison of terms can follow.  Where one of two
related terms is a level, they stand for the same level.  Otherwise they are built in the same way,
from related parts. -/
structure Matching (alike : Term → Term → Prop) : Prop where
  ofTerm_eq {left right : Term} : alike left right → left.IsLevel ∨ right.IsLevel →
    left.IsCanonical → right.IsCanonical → Level.ofTerm left = Level.ofTerm right
  eq_of_atomic {left right : Term} : alike left right → left.IsAtomic → ¬right.IsLevel →
    right = left
  univ {sort : Universe} {right : Term} : alike (.univ sort) right → ¬right.IsLevel →
    ∃ sort' : Universe, right = .univ sort' ∧ (sort.IsNormal → sort'.IsNormal → sort = sort')
  pi {name : Name} {info : ArgInfo} {domain codomain : Ty} {right : Term} :
    alike (.pi name info domain codomain) right → ¬right.IsLevel →
    ∃ name' info' domain' codomain', right = .pi name' info' domain' codomain' ∧
      info.plicity = info'.plicity ∧ alike domain.term domain'.term ∧
      alike codomain.term codomain'.term
  app {function argument right : Term} {info : ArgInfo} :
    alike (.app function argument info) right → ¬right.IsLevel →
    ∃ function' argument' info', right = .app function' argument' info' ∧
      alike function.head right.head ∧
      List.Forall₂ (fun left right => alike left.2 right.2)
        (Phrase.app function argument info).arguments right.arguments

/-- Applications that are related part by part have related heads and arguments. -/
theorem Phrase.forall₂_spine {alike : Term → Term → Prop}
    (app : ∀ {function argument right : Term} {info : ArgInfo},
      alike (.app function argument info) right → ¬right.IsLevel →
      ¬function.IsLevel ∧ ∃ function' argument' info', right = .app function' argument' info' ∧
        ¬function'.IsLevel ∧ alike function function' ∧ alike argument argument')
    (other : ∀ {left right : Term}, alike left right → left.arguments = [] → ¬left.IsLevel →
      ¬right.IsLevel → right.arguments = []) :
    ∀ {left right : Term}, alike left right → ¬left.IsLevel → ¬right.IsLevel →
      alike left.head right.head ∧
        List.Forall₂ (fun left right => alike left.2 right.2) left.arguments right.arguments
  | .app function argument info, right, related, leftNoLevel, rightNoLevel => by
    obtain ⟨noLevel, function', argument', info', rfl, noLevel', functions, arguments⟩ :=
      app related rightNoLevel
    obtain ⟨heads, earlier⟩ := forall₂_spine app other functions noLevel noLevel'
    refine ⟨heads, ?_⟩
    rw [Phrase.arguments_app, Phrase.arguments_app]
    exact List.rel_append earlier (.cons arguments .nil)
  | .var _, right, related, leftNoLevel, rightNoLevel
  | .const _, right, related, leftNoLevel, rightNoLevel
  | .pi _ _ _ _, right, related, leftNoLevel, rightNoLevel
  | .univ _, right, related, leftNoLevel, rightNoLevel
  | .placeholder _ _, right, related, leftNoLevel, rightNoLevel => by
    have alone := other related rfl leftNoLevel rightNoLevel
    rw [alone]
    refine ⟨?_, .nil⟩
    cases right with
    | app => simp at alone
    | _ => exact related
  | .level _, _, _, leftNoLevel, _ => absurd trivial leftNoLevel

section Agreement

variable {same : ∀ {category : Category}, Phrase category → Phrase category → Prop}

/-- Tame normal forms that agree, where nothing is skipped, can be followed, if levels and sorts
that count as the same are the same. -/
theorem matching_agreesUpTo
    (levels : ∀ {left right : Level}, same left right → left.Tame allowed → right.Tame allowed →
      left.IsCanonical → right.IsCanonical → left = right)
    (sorts : ∀ {left right : Universe}, same left right → left.Tame allowed → right.Tame allowed →
      left.IsNormal → right.IsNormal → left = right) :
    Matching fun left right => AgreesUpTo (fun _ => false) same left right ∧
      left.Tame allowed ∧ right.Tame allowed where
  ofTerm_eq := by
    rintro left right ⟨agrees, leftTame, rightTame⟩ isLevel leftCanonical rightCanonical
    cases agrees with
    | refl => rfl
    | app | pi | univ => exact (isLevel.elim id id).elim
    | level related => exact levels related leftTame rightTame leftCanonical rightCanonical
    | wrapped =>
      have noLevel : ¬left.IsLevel := rightCanonical.2 left (by simp [Level.terms, Level.atoms])
      exact Level.ofTerm_of_not_isLevel noLevel
    | unwrapped =>
      have noLevel : ¬right.IsLevel := leftCanonical.2 right (by simp [Level.terms, Level.atoms])
      exact (Level.ofTerm_of_not_isLevel noLevel).symm
  eq_of_atomic := by
    rintro left right ⟨agrees, _⟩ isAtomic noLevel
    cases agrees with
    | refl => rfl
    | app | pi | univ | level | unwrapped => exact isAtomic.elim
    | wrapped => exact absurd trivial noLevel
  univ := by
    rintro sort right ⟨agrees, leftTame, rightTame⟩ noLevel
    obtain ⟨sort', rfl, related⟩ := agrees.univ_cases noLevel
    refine ⟨sort', rfl, fun leftNormal rightNormal => ?_⟩
    exact related.elim id fun related => sorts related leftTame rightTame leftNormal rightNormal
  pi := by
    rintro name info domain codomain right ⟨agrees, leftTame, rightTame⟩ noLevel
    obtain ⟨_, _, _, _, rfl, samePlicity, domains, codomains⟩ := agrees.pi_cases noLevel
    exact ⟨_, _, _, _, rfl, samePlicity, ⟨domains, leftTame.1.term, rightTame.1.term⟩,
      ⟨codomains, leftTame.2.term, rightTame.2.term⟩⟩
  app := by
    rintro function argument right info related noLevel
    obtain ⟨_, _, _, isApp, _, _⟩ := related.1.app_cases noLevel
    have leftNoLevel : ¬(Phrase.app function argument info).IsLevel := not_false
    refine ⟨_, _, _, isApp, @Phrase.forall₂_spine (fun left right =>
      AgreesUpTo (fun _ => false) same left right ∧ left.Tame allowed ∧ right.Tame allowed) ?_
        ?_ _ _
      related leftNoLevel noLevel⟩
    · rintro function argument right info ⟨agrees, leftTame, rightTame⟩ noLevel
      obtain ⟨_, _, _, rfl, functions, arguments⟩ := agrees.app_cases noLevel
      exact ⟨leftTame.1, _, _, _, rfl, rightTame.1, ⟨functions, leftTame.2.1, rightTame.2.1⟩,
        ⟨arguments rfl, leftTame.2.2, rightTame.2.2⟩⟩
    · rintro left right ⟨agrees, _⟩ alone leftNoLevel rightNoLevel
      cases agrees with
      | refl => exact alone
      | app => simp at alone
      | pi | univ => rfl
      | level | unwrapped => exact absurd trivial leftNoLevel
      | wrapped => exact absurd trivial rightNoLevel

/-- Nothing is skipped, and levels and sorts are taken as they stand. -/
theorem matching_agrees :
    Matching fun left right => AgreesUpTo (fun _ => false) Eq left right ∧
      left.Tame allowed ∧ right.Tame allowed :=
  matching_agreesUpTo (fun same _ _ _ _ => same) fun same _ _ _ _ => same

theorem matching_resembles (apart : Set.InjOn Phrase.essence allowed) :
    Matching fun left right => Resembles left right ∧ left.Tame allowed ∧ right.Tame allowed :=
  matching_agreesUpTo (Phrase.eq_of_essence_eq apart) fun same leftTame rightTame leftNormal
    rightNormal => leftNormal.eq_of_essence_eq apart rightNormal same leftTame rightTame

end Agreement

/-- Terms that cannot be unfolded and that differ in their shapes have normal forms that are not
related. -/
theorem Matching.unrelated {alike : Term → Term → Prop} {left right leftNormal rightNormal : Term}
    (matching : Matching alike) (leftStuck : ∀ next, ¬Unfolds state left next)
    (rightStuck : ∀ next, ¬Unfolds state right next) (hasLeft : HasNormalForm state left leftNormal)
    (hasRight : HasNormalForm state right rightNormal) (differ : left ≠ right)
    (leftKnown : ∀ id arguments, left ≠ .placeholder id arguments)
    (leftNoLevel : ∀ bound, left ≠ .level bound) (rightNoLevel : ∀ bound, right ≠ .level bound)
    (notSorts : ∀ sort sort', left = .univ sort → right ≠ .univ sort')
    (notTypes : ∀ name info domain codomain name' info' domain' codomain',
      left = .pi name info domain codomain → right ≠ .pi name' info' domain' codomain')
    (notApps : ∀ function argument info function' argument' info',
      left = .app function argument info → right ≠ .app function' argument' info') :
    ¬alike leftNormal rightNormal := by
  intro related
  have noLevel : ¬rightNormal.IsLevel := by
    rw [hasRight.isLevel_iff rightStuck]
    cases right with
    | level bound => exact absurd rfl (rightNoLevel bound)
    | _ => exact not_false
  cases hasLeft with
  | step unfolds _ => exact leftStuck _ unfolds
  | level => exact leftNoLevel _ rfl
  | placeholder => exact leftKnown _ _ rfl
  | atomic isAtomic _ =>
    obtain rfl := matching.eq_of_atomic related isAtomic noLevel
    cases hasRight with
    | step unfolds _ => exact rightStuck _ unfolds
    | atomic => exact differ rfl
    | _ => exact isAtomic
  | univ _ =>
    obtain ⟨_, rfl, _⟩ := matching.univ related noLevel
    cases hasRight with
    | step unfolds _ => exact rightStuck _ unfolds
    | atomic isAtomic _ => exact isAtomic
    | univ _ => exact notSorts _ _ rfl rfl
  | pi _ _ =>
    obtain ⟨_, _, _, _, rfl, _⟩ := matching.pi related noLevel
    cases hasRight with
    | step unfolds _ => exact rightStuck _ unfolds
    | atomic isAtomic _ => exact isAtomic
    | pi _ _ => exact notTypes _ _ _ _ _ _ _ _ rfl rfl
  | app _ _ _ =>
    obtain ⟨_, _, _, rfl, _⟩ := matching.app related noLevel
    cases hasRight with
    | step unfolds _ => exact rightStuck _ unfolds
    | atomic isAtomic _ => exact isAtomic
    | app _ _ _ => exact notApps _ _ _ _ _ _ rfl rfl

/-! ## Computations that come to an end -/

/-- The computation answers or finds an error, and leaves the state as it was. -/
structure Concludes {ε α : Type} (computation : Attempt ε State α) (state : State) : Prop where
  state_eq : (computation.run state).state = state
  result_ne (halt : Halt) : (computation.run state).result ≠ .error (.halt halt)

namespace Concludes

variable {ε α β : Type} {state : State}

theorem pure (value : α) : Concludes (Pure.pure value : Attempt ε State α) state :=
  ⟨rfl, fun _ same => by cases same⟩

theorem fail (error : ε) : Concludes (Attempt.fail error : Attempt ε State α) state :=
  ⟨rfl, fun _ same => by cases same⟩

theorem bind {first : Attempt ε State α} {next : α → Attempt ε State β}
    (firstConcludes : Concludes first state)
    (nextConcludes : ∀ value, Concludes (next value) state) : Concludes (first >>= next) state := by
  cases answered : (first.run state).result with
  | ok value =>
    obtain ⟨state_eq, result_ne⟩ := nextConcludes value
    constructor
    · rwa [Attempt.run_bind_of_ok answered, firstConcludes.state_eq]
    · rwa [Attempt.run_bind_of_ok answered, firstConcludes.state_eq]
  | error failure =>
    obtain ⟨state_eq, result_ne⟩ := firstConcludes
    constructor
    · rwa [Attempt.run_bind_of_error answered]
    · intro halt same
      rw [Attempt.run_bind_of_error answered] at same
      exact result_ne halt (answered.trans (congrArg _ (Except.error.inj same)))

theorem get_bind {next : State → Attempt ε State α} (nextConcludes : Concludes (next state) state) :
    Concludes (MonadState.get >>= next) state :=
  ⟨nextConcludes.state_eq, nextConcludes.result_ne⟩

theorem lift_bind {halting : Except Halt α} {next : α → Attempt ε State β} {value : α}
    (answers : halting = .ok value) (nextConcludes : Concludes (next value) state) :
    Concludes (monadLift halting >>= next) state := by
  subst answers
  exact ⟨nextConcludes.state_eq, nextConcludes.result_ne⟩

end Concludes

/-- What is built from parts in one way has a property of the parts from some point on, if the parts
have it from some point on. -/
theorem eventually_of_injective {α β : Type} {build : α → β} {left right : β}
    {holds : Nat → α → α → Prop} (injective : Function.Injective build)
    (each : ∀ leftPart rightPart, left = build leftPart → right = build rightPart →
      ∀ᶠ fuel in atTop, holds fuel leftPart rightPart) :
    ∀ᶠ fuel in atTop, ∀ leftPart rightPart, left = build leftPart → right = build rightPart →
      holds fuel leftPart rightPart := by
  by_cases built : ∃ leftPart rightPart, left = build leftPart ∧ right = build rightPart
  · obtain ⟨leftPart, rightPart, rfl, rfl⟩ := built
    filter_upwards [each leftPart rightPart rfl rfl] with fuel holds leftPart' rightPart' same same'
    rwa [← injective same, ← injective same']
  · refine .of_forall fun fuel leftPart rightPart isLeft isRight => ?_
    exact absurd ⟨leftPart, rightPart, isLeft, isRight⟩ built

namespace ConvM

open Phrase

variable {fuel depth : Nat}

/-- The comparison comes to an end, leaves the state as it was, and succeeds exactly when the
statement holds. -/
structure Judges (comparison : ConvM Unit) (state : State) (holds : Prop) : Prop where
  concludes : Concludes comparison state
  succeeds_iff : (comparison.run state).result = .ok () ↔ holds

namespace Judges

variable {holds : Prop}

theorem pure (isTrue : holds) : Judges (Pure.pure ()) state holds :=
  ⟨Concludes.pure (), iff_of_true rfl isTrue⟩

theorem fail (error : ConversionError) (isFalse : ¬holds) :
    Judges (Attempt.fail error) state holds :=
  ⟨Concludes.fail error, iff_of_false (fun same => by cases same) isFalse⟩

theorem get_bind {next : State → ConvM Unit} (judges : Judges (next state) state holds) :
    Judges (get >>= next) state holds :=
  ⟨Concludes.get_bind judges.concludes, judges.succeeds_iff⟩

theorem lift_bind {α : Type} {halting : Except Halt α} {next : α → ConvM Unit} {value : α}
    (answers : halting = .ok value) (judges : Judges (next value) state holds) :
    Judges (monadLift halting >>= next) state holds := by
  subst answers
  exact ⟨Concludes.lift_bind rfl judges.concludes, judges.succeeds_iff⟩

end Judges

/-- The comparison comes to an end, leaves the state as it was, and succeeds if the statement
holds. -/
structure Confirms (comparison : ConvM Unit) (state : State) (holds : Prop) : Prop where
  concludes : Concludes comparison state
  succeeds : holds → (comparison.run state).result = .ok ()

namespace Confirms

variable {holds stronger : Prop}

theorem pure : Confirms (Pure.pure ()) state holds :=
  ⟨Concludes.pure (), fun _ => rfl⟩

theorem fail {error : ConversionError} (isFalse : ¬holds) :
    Confirms (Attempt.fail error) state holds :=
  ⟨Concludes.fail error, fun isTrue => absurd isTrue isFalse⟩

theorem mono {comparison : ConvM Unit} (confirms : Confirms comparison state holds)
    (weaker : stronger → holds) : Confirms comparison state stronger :=
  ⟨confirms.concludes, fun isTrue => confirms.succeeds (weaker isTrue)⟩

theorem get_bind {next : State → ConvM Unit} (confirms : Confirms (next state) state holds) :
    Confirms (get >>= next) state holds :=
  ⟨Concludes.get_bind confirms.concludes, confirms.succeeds⟩

theorem lift_bind {α : Type} {halting : Except Halt α} {next : α → ConvM Unit} {value : α}
    (answers : halting = .ok value) (confirms : Confirms (next value) state holds) :
    Confirms (monadLift halting >>= next) state holds := by
  subst answers
  exact ⟨Concludes.lift_bind rfl confirms.concludes, confirms.succeeds⟩

theorem bind {first next : ConvM Unit} {both : Prop} (firstConfirms : Confirms first state holds)
    (nextConfirms : Confirms next state stronger) (parts : both → holds ∧ stronger) :
    Confirms (first >>= fun _ => next) state both := by
  refine ⟨firstConfirms.concludes.bind fun _ => nextConfirms.concludes, fun isTrue => ?_⟩
  rw [Attempt.run_bind_of_ok (firstConfirms.succeeds (parts isTrue).1),
    firstConfirms.concludes.state_eq]
  exact nextConfirms.succeeds (parts isTrue).2

theorem yields {comparison : ConvM Unit} (confirms : Confirms comparison state holds)
    (isTrue : holds) : Yields comparison state () state :=
  ⟨confirms.succeeds isTrue, confirms.concludes.state_eq⟩

end Confirms

theorem Judges.confirms {comparison : ConvM Unit} {holds : Prop}
    (judges : Judges comparison state holds) : Confirms comparison state holds :=
  ⟨judges.concludes, judges.succeeds_iff.2⟩

theorem judges_equalLevel {left right leftNormal rightNormal : Level}
    (leftGround : leftNormal.Ground) (rightGround : rightNormal.Ground)
    (leftDone : normalise state fuel left = .ok leftNormal)
    (rightDone : normalise state fuel right = .ok rightNormal) :
    Judges (equalLevel fuel depth left right) state (leftNormal = rightNormal) := by
  refine .get_bind (.lift_bind leftDone (.lift_bind rightDone ?_))
  rw [leftGround.asPlaceholder?, rightGround.asPlaceholder?, Phrase.ground_iff.1 leftGround,
    Phrase.ground_iff.1 rightGround]
  split
  · exact .pure ‹_›
  · exact .fail _ ‹_›

/-- A reduced sort without placeholders is normal, or its level becomes normal. -/
theorem sort_of_rebuilds {reduced normal : Universe} (ground : normal.Ground)
    (rebuilds : Rebuilds state fuel reduced normal) :
    (reduced = normal ∧ ∀ bound, normal ≠ .set bound) ∨
      ∃ bound bound', reduced = .set bound ∧ normal = .set bound' ∧
        normalise state fuel bound = .ok bound' := by
  cases rebuilds with
  | prop | sizeUniv | omega => exact .inl ⟨rfl, by simp⟩
  | set normalised => exact .inr ⟨_, _, rfl, rfl, normalised⟩
  | sortPlaceholder => exact absurd ground Phrase.not_ground_sortPlaceholder

/-- Sorts are found equal exactly when their normal forms are the same. -/
theorem eventually_judges_equalSort {fuel' : Nat} {left right leftNormal rightNormal : Universe}
    (depth : Nat) (leftGround : leftNormal.Ground) (rightGround : rightNormal.Ground)
    (leftNormalised : normalise state fuel left = .ok leftNormal)
    (rightNormalised : normalise state fuel' right = .ok rightNormal) :
    ∀ᶠ fuel in atTop, Judges (equalSort fuel depth left right) state
      (leftNormal = rightNormal) := by
  obtain ⟨_, leftReduced, isLeft, leftRebuilds⟩ := exists_of_normalise leftNormalised
  obtain ⟨_, rightReduced, isRight, rightRebuilds⟩ := exists_of_normalise rightNormalised
  have leftCases := sort_of_rebuilds leftGround leftRebuilds
  have rightCases := sort_of_rebuilds rightGround rightRebuilds
  have levels : ∀ᶠ fuel in atTop, ∀ leftBound rightBound, leftReduced = .set leftBound →
      rightReduced = .set rightBound → (leftBound = rightBound → leftNormal = rightNormal) ∧
        Judges (equalLevel fuel depth leftBound rightBound) state (leftNormal = rightNormal) := by
    refine eventually_of_injective (fun _ _ => Phrase.set.inj) ?_
    rintro leftBound rightBound rfl rfl
    obtain ⟨rfl, notSet⟩ | ⟨_, leftBound', ⟨⟩, rfl, leftDone⟩ := leftCases
    · exact absurd rfl (notSet leftBound)
    obtain ⟨rfl, notSet⟩ | ⟨_, rightBound', ⟨⟩, rfl, rightDone⟩ := rightCases
    · exact absurd rfl (notSet rightBound)
    filter_upwards [eventually_normalise leftDone, eventually_normalise rightDone]
      with fuel leftDone rightDone
    rw [Phrase.set.injEq]
    refine ⟨?_, judges_equalLevel leftGround rightGround leftDone rightDone⟩
    rintro rfl
    exact Except.ok.inj (leftDone.symm.trans rightDone)
  filter_upwards [eventually_reduce isLeft, eventually_reduce isRight, levels]
    with fuel leftDone rightDone levels
  refine .get_bind (.lift_bind leftDone (.lift_bind rightDone ?_))
  split
  · rename_i same
    refine .pure ?_
    obtain ⟨rfl, leftNotSet⟩ | ⟨leftBound, _, rfl, rfl, _⟩ := leftCases
    · obtain ⟨rfl, _⟩ | ⟨rightBound, _, rfl, _⟩ := rightCases
      · exact same
      · exact absurd same (leftNotSet rightBound)
    · exact (levels leftBound leftBound rfl same.symm).1 rfl
  · rename_i different
    split
    · obtain ⟨rfl, _⟩ | ⟨_, _, ⟨⟩, _⟩ := leftCases
      exact absurd leftGround Phrase.not_ground_sortPlaceholder
    · obtain ⟨rfl, _⟩ | ⟨_, _, ⟨⟩, _⟩ := rightCases
      exact absurd rightGround Phrase.not_ground_sortPlaceholder
    · exact (levels _ _ rfl rfl).2
    · rename_i notBoth
      refine .fail _ ?_
      rintro rfl
      obtain ⟨rfl, leftNotSet⟩ | ⟨leftBound, _, rfl, rfl, _⟩ := leftCases
      · obtain ⟨rfl, _⟩ | ⟨_, rightBound, rfl, isSet, _⟩ := rightCases
        · exact different rfl
        · exact leftNotSet rightBound isSet
      · obtain ⟨rfl, rightNotSet⟩ | ⟨rightBound, _, rfl, _⟩ := rightCases
        · exact rightNotSet _ rfl
        · exact notBoth leftBound rightBound rfl rfl

/-- Arguments are confirmed if they are confirmed one by one. -/
theorem eventually_confirms_equalArguments {alike : Term → Term → Prop}
    {isNormal isNormal' : ArgInfo × Term → ArgInfo × Term → Prop}
    {left right left' right' : List (ArgInfo × Term)} (lefts : List.Forall₂ isNormal left left')
    (rights : List.Forall₂ isNormal' right right')
    (each : ∀ one ∈ left, ∀ other ∈ right, ∀ {one' other'}, isNormal one one' →
      isNormal' other other' → ∀ᶠ fuel in atTop,
        Confirms (equalTerm fuel depth one.2 other.2) state (alike one'.2 other'.2)) :
    ∀ᶠ fuel in atTop, Confirms (equalArguments (equalTerm fuel depth) left right) state
      (List.Forall₂ (fun left right => alike left.2 right.2) left' right') := by
  induction lefts generalizing right right' with
  | nil => exact .of_forall fun _ => .pure
  | cons isFirst _ ih =>
    cases rights with
    | nil => exact .of_forall fun _ => .pure
    | cons isFirst' rights =>
      have rest := ih rights fun one oneIn other otherIn =>
        each one (.tail _ oneIn) other (.tail _ otherIn)
      filter_upwards [each _ (.head _) _ (.head _) isFirst isFirst', rest]
        with fuel firstDone restDone
      rw [equalArguments]
      split
      · exact restDone.mono fun related => (List.forall₂_cons.1 related).2
      · exact firstDone.bind restDone List.forall₂_cons.1

/-- The comparison of terms without placeholders comes to an end if they have normal forms, and they
are found equal if it can follow these. -/
theorem eventually_confirms_equalTerm {alike : Term → Term → Prop} {fuel' : Nat}
    {left right left' right' : Term} (matching : Matching alike) (wellScoped : state.WellScoped)
    (ground : state.Ground) (leftInScope : left.Scoped (fun _ _ _ => False) depth)
    (rightInScope : right.Scoped (fun _ _ _ => False) depth)
    (leftNormal : normalise state fuel left = .ok left')
    (rightNormal : normalise state fuel' right = .ok right') :
    ∀ᶠ fuel in atTop, Confirms (equalTerm fuel depth left right) state (alike left' right') := by
  -- The induction follows the normal form on the left: each comparison that is made is one of parts
  -- that have normal forms of their own.
  induction fuel generalizing fuel' depth left right left' right' with
  | zero => cases leftNormal
  | succ fuel ih =>
    refine eventually_of_succ ?_
    have leftCanonical := (wellScoped.hasNormalForm_of_ground leftInScope leftNormal).isCanonical
    have rightCanonical :=
      (wellScoped.hasNormalForm_of_ground rightInScope rightNormal).isCanonical
    obtain ⟨leftReduced, leftDone, leftRebuilds⟩ := normalise_eq_ok_iff.1 leftNormal
    obtain ⟨fuel', rightReduced, rightDone, rightRebuilds⟩ := exists_of_normalise rightNormal
    have leftReducedInScope := ground.scoped_reduce wellScoped leftInScope leftDone
    have rightReducedInScope := ground.scoped_reduce wellScoped rightInScope rightDone
    have leftGround : leftReduced.Ground := ⟨_, leftReducedInScope⟩
    have rightGround : rightReduced.Ground := ⟨_, rightReducedInScope⟩
    have levels : ∀ᶠ fuel in atTop, left'.IsLevel ∨ right'.IsLevel →
        Confirms (equalLevel fuel depth (Level.ofTerm leftReduced) (Level.ofTerm rightReduced))
          state (alike left' right') := by
      filter_upwards [eventually_normalise_ofTerm leftDone leftRebuilds,
        eventually_normalise_ofTerm rightDone rightRebuilds] with fuel leftDone rightDone isLevel
      refine (judges_equalLevel (ground.normalise leftDone leftGround.ofTerm)
        (ground.normalise rightDone rightGround.ofTerm) leftDone rightDone).confirms.mono ?_
      exact fun related => matching.ofTerm_eq related isLevel leftCanonical rightCanonical
    have sorts : ∀ᶠ fuel in atTop, ∀ leftSort rightSort, leftReduced = .univ leftSort →
        rightReduced = .univ rightSort →
        Confirms (equalSort fuel depth leftSort rightSort) state (alike left' right') := by
      refine eventually_of_injective (fun _ _ => Phrase.univ.inj) ?_
      rintro leftSort rightSort rfl rfl
      cases leftRebuilds with | univ leftSortNormal =>
      cases rightRebuilds with | univ rightSortNormal =>
      refine (eventually_judges_equalSort depth (ground.normalise leftSortNormal leftGround)
        (ground.normalise rightSortNormal rightGround) leftSortNormal rightSortNormal).mono
          fun _ judges => judges.confirms.mono fun related => ?_
      have isNormal {fuel : Nat} {sort normal : Universe}
        (done : normalise state fuel sort = .ok normal)
          (inScope : sort.Scoped (fun _ _ _ => False) depth) : normal.IsNormal :=
        (wellScoped.hasNormalForm_of_ground inScope done).isNormal ⟨_, inScope⟩
      obtain ⟨_, ⟨⟩, same⟩ := matching.univ related not_false
      exact same (isNormal leftSortNormal leftReducedInScope)
        (isNormal rightSortNormal rightReducedInScope)
    have types : ∀ᶠ fuel in atTop, ∀ leftParts rightParts : (Name × ArgInfo) × Ty × Ty,
        leftReduced = .pi leftParts.1.1 leftParts.1.2 leftParts.2.1 leftParts.2.2 →
        rightReduced = .pi rightParts.1.1 rightParts.1.2 rightParts.2.1 rightParts.2.2 →
        ∃ domains codomains,
          Confirms (equalTerm fuel depth leftParts.2.1.term rightParts.2.1.term) state domains ∧
          Confirms (equalTerm fuel (depth + 1) leftParts.2.2.term rightParts.2.2.term) state
            codomains ∧
          (alike left' right' → leftParts.1.2.plicity = rightParts.1.2.plicity ∧
            domains ∧ codomains) := by
      refine eventually_of_injective (by rintro ⟨⟨_, _⟩, _, _⟩ ⟨⟨_, _⟩, _, _⟩ ⟨⟩; rfl) ?_
      rintro ⟨_, domain, codomain⟩ ⟨_, domain', codomain'⟩ rfl rfl
      cases leftRebuilds with | pi domainNormal codomainNormal =>
      cases rightRebuilds with | pi domainNormal' codomainNormal' =>
      have domains := ih leftReducedInScope.1.term rightReducedInScope.1.term
        (normalise_term domainNormal) (normalise_term domainNormal')
      have codomains := ih leftReducedInScope.2.term rightReducedInScope.2.term
        (normalise_term codomainNormal) (normalise_term codomainNormal')
      filter_upwards [domains, codomains] with fuel domains codomains
      refine ⟨_, _, domains, codomains, fun related => ?_⟩
      obtain ⟨_, _, _, _, ⟨⟩, parts⟩ := matching.pi related not_false
      exact parts
    have applications : ∀ᶠ fuel in atTop, ∀ leftParts rightParts : (Term × Term) × ArgInfo,
        leftReduced = .app leftParts.1.1 leftParts.1.2 leftParts.2 →
        rightReduced = .app rightParts.1.1 rightParts.1.2 rightParts.2 →
        ∃ heads arguments,
          Confirms (equalTerm fuel depth leftReduced.head rightReduced.head) state heads ∧
          Confirms (equalArguments (equalTerm fuel depth) leftReduced.arguments
            rightReduced.arguments) state arguments ∧
          (alike left' right' → leftReduced.arguments.length = rightReduced.arguments.length ∧
            heads ∧ arguments) := by
      refine eventually_of_injective (by rintro ⟨⟨_, _⟩, _⟩ ⟨⟨_, _⟩, _⟩ ⟨⟩; rfl) ?_
      rintro ⟨⟨function, argument⟩, info⟩ ⟨⟨function', argument'⟩, info'⟩ rfl rfl
      obtain ⟨headNormal, argumentsNormal⟩ :=
        leftRebuilds.spine (inert_of_reduce leftDone).unfoldHead?_app
      obtain ⟨headNormal', argumentsNormal'⟩ :=
        rightRebuilds.spine (inert_of_reduce rightDone).unfoldHead?_app
      obtain ⟨leftHead, leftArguments⟩ := (scoped_iff_arguments _).1 leftReducedInScope
      obtain ⟨rightHead, rightArguments⟩ := (scoped_iff_arguments _).1 rightReducedInScope
      have arguments := eventually_confirms_equalArguments argumentsNormal argumentsNormal'
        fun one oneIn other otherIn _ _ isNormal isNormal' =>
          ih (leftArguments one oneIn) (rightArguments other otherIn) isNormal isNormal'
      filter_upwards [ih leftHead rightHead headNormal headNormal', arguments]
        with fuel heads arguments
      refine ⟨_, _, heads, arguments, fun related => ?_⟩
      cases leftRebuilds
      cases rightRebuilds
      obtain ⟨_, _, _, _, heads, arguments⟩ := matching.app related not_false
      exact ⟨(argumentsNormal.length_eq.trans arguments.length_eq).trans
        argumentsNormal'.length_eq.symm, heads, arguments⟩
    have stuck {fuel : Nat} {term reduced : Term} (inScope : term.Scoped (fun _ _ _ => False) depth)
        (done : reduce state fuel term = .ok reduced) : ∀ next, ¬Unfolds state reduced next :=
      fun _ => (reduces_of_reduce wellScoped done
        (inScope.mono False.elim (Nat.le_refl _))).1.inert.not_unfolds
    obtain ⟨_, leftAlone⟩ := (eventually_normalise_reduced leftDone leftRebuilds).exists
    obtain ⟨_, rightAlone⟩ := (eventually_normalise_reduced rightDone rightRebuilds).exists
    have hasLeft := wellScoped.hasNormalForm_of_ground leftReducedInScope leftAlone
    have hasRight := wellScoped.hasNormalForm_of_ground rightReducedInScope rightAlone
    filter_upwards [eventually_reduce leftDone, eventually_reduce rightDone, levels, sorts, types,
      applications] with more leftAgain rightAgain levels sorts types applications
    refine .get_bind (.lift_bind leftAgain (.lift_bind rightAgain ?_))
    split
    · exact .pure
    · rename_i differ
      split
      · exact absurd leftGround Phrase.not_ground_placeholder
      · exact absurd rightGround Phrase.not_ground_placeholder
      · exact levels (.inl (leftRebuilds.isLevel_iff.2 trivial))
      · exact levels (.inr (rightRebuilds.isLevel_iff.2 trivial))
      · exact sorts _ _ rfl rfl
      · obtain ⟨_, _, domains, codomains, parts⟩ :=
          types ⟨⟨_, _⟩, _, _⟩ ⟨⟨_, _⟩, _, _⟩ rfl rfl
        split
        · exact domains.bind codomains fun related => (parts related).2
        · rename_i otherwise
          exact .fail fun related => otherwise (parts related).1
      · obtain ⟨_, _, heads, arguments, parts⟩ := applications ⟨⟨_, _⟩, _⟩ ⟨⟨_, _⟩, _⟩ rfl rfl
        have leftHead := ((scoped_iff_arguments _).1 leftReducedInScope).1
        have rightHead := ((scoped_iff_arguments _).1 rightReducedInScope).1
        rw [Ground.isPlaceholder ⟨_, leftHead⟩, Ground.isPlaceholder ⟨_, rightHead⟩]
        simp only [Bool.or_self, Bool.false_eq_true, if_false]
        split
        · exact heads.bind arguments fun related => (parts related).2
        · rename_i otherwise
          exact .fail fun related => otherwise (parts related).1
      · rename_i leftKnown leftNoLevel _ rightNoLevel notSorts notTypes notApps
        exact .fail (matching.unrelated (stuck leftInScope leftDone) (stuck rightInScope rightDone)
          hasLeft hasRight differ leftKnown leftNoLevel rightNoLevel notSorts notTypes notApps)

end ConvM
end Families
