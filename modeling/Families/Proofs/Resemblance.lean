import Families.Proofs.Ground
import Families.Proofs.Lockstep

/-!
# Resemblance

Terms resemble each other when they agree up to levels and sorts of the same essence and nothing is
skipped.  So they have the same essence, and a term stands in the place of a level only if the level
consists of that very term.  Where no placeholder occurs, substitution and evaluation keep this.
-/

namespace Families

/-- The terms agree up to levels and sorts of the same essence. -/
abbrev Resembles : Term → Term → Prop :=
  AgreesUpTo (fun _ => false) fun left right => left.essence = right.essence

variable {state : State} {category : Category} {depth : Nat} {allowed : Set Term}

theorem Phrase.essence_wrapped (term : Term) :
    (Phrase.level (Level.ofParts 0 [⟨term, 0⟩])).essence = term.essence := by
  apply essence_eq_of_deepEval
  intro value
  rw [deepEval_essence, deepEval_essence]
  simp [Level.ofParts, ofAtoms, deepEval]

/-- The sort of a type is no part of its essence. -/
theorem Phrase.essence_eq_of_term {left right : Ty}
    (same : left.term.essence = right.term.essence) : left.essence = right.essence := by
  cases left
  cases right
  exact congrArg (classified prop) same

theorem Phrase.term_replace (ty : Ty) (images : Nat → Term) :
    (ty.replace images).term = ty.term.replace images := by
  cases ty
  rfl

namespace AgreesUpTo

variable {same : ∀ {category : Category}, Phrase category → Phrase category → Prop}

/-- Where no level is applied, agreeing applications of one declaration have agreeing arguments. -/
theorem const_spine {path : Path} :
    ∀ {left right : Term}, AgreesUpTo (fun _ => false) same left right → left.head = .const path →
      ¬right.head.IsLevel → right.head = .const path ∧
        List.Forall₂ (AgreesUpTo (fun _ => false) same) (left.arguments.map (·.2))
          (right.arguments.map (·.2))
  | .app function argument info, right, agrees, isConst, noLevel => by
    obtain ⟨function', argument', info', rfl, functions, arguments⟩ :=
      agrees.app_cases (Phrase.not_isLevel_of_head noLevel)
    obtain ⟨isConst', earlier⟩ := functions.const_spine isConst noLevel
    refine ⟨isConst', ?_⟩
    simp only [Phrase.arguments_app, List.map_append, List.map_cons, List.map_nil]
    exact List.rel_append earlier (.cons (arguments rfl) .nil)
  | .const _, right, agrees, isConst, noLevel => by
    cases agrees with
    | refl => exact ⟨isConst, .nil⟩
    | wrapped => exact absurd trivial noLevel

end AgreesUpTo

namespace Resembles

variable {left right : Term}

theorem essence_eq (resembles : Resembles left right) : left.essence = right.essence := by
  induction resembles with
  | refl => rfl
  | app _ _ ihFunction ihArgument => simp [Phrase.essence, ihFunction, ihArgument]
  | pi samePlicity _ _ ihDomain ihCodomain =>
    simp [Phrase.essence, samePlicity, Phrase.essence_eq_of_term ihDomain,
      Phrase.essence_eq_of_term ihCodomain]
  | univ same => exact congrArg Phrase.univ same
  | level same => simp [Phrase.essence, same]
  | wrapped term => exact (Phrase.essence_wrapped term).symm
  | unwrapped term => exact Phrase.essence_wrapped term

/-! ## Substitution -/

theorem replace (resembles : Resembles left right) (images : Nat → Term) :
    Resembles (left.replace images) (right.replace images) := by
  induction resembles generalizing images with
  | refl => exact .refl _
  | app _ _ ihFunction ihArgument =>
    exact .app (ihFunction images) fun relevant => ihArgument relevant images
  | pi samePlicity _ _ ihDomain ihCodomain =>
    have domains := ihDomain images
    have codomains := ihCodomain (Phrase.up images)
    rw [← Phrase.term_replace, ← Phrase.term_replace] at domains codomains
    exact .pi samePlicity domains codomains
  | univ same => exact .univ (Phrase.essence_replace_eq same images)
  | level same => exact .level (Phrase.essence_replace_eq same images)
  | wrapped => exact .wrapped _
  | unwrapped => exact .unwrapped _

end Resembles

/-- Terms and the terms of types resemble each other, other phrases have the same essence. -/
def Similar : {category : Category} → Phrase category → Phrase category → Prop
  | .term, left, right => Resembles left right
  | .type, left, right => Resembles left.term right.term
  | _, left, right => left.essence = right.essence

/-- Resembling terms may be substituted in a phrase without placeholders. -/
theorem Similar.replace_congr {left right : Nat → Term} {phrase : Phrase category}
    (inScope : phrase.Scoped (fun _ _ _ => False) depth)
    (resemble : ∀ index, Resembles (left index) (right index)) :
    Similar (phrase.replace left) (phrase.replace right) := by
  have sameEssence {category : Category} (part : Phrase category) :
      (part.replace left).essence = (part.replace right).essence :=
    Phrase.essence_replace_congr part fun index => (resemble index).essence_eq
  induction phrase generalizing left right depth with
  | var index => exact resemble index
  | const path => exact AgreesUpTo.refl _
  | app function argument info ihFunction ihArgument =>
    exact .app (ihFunction inScope.1 resemble sameEssence) fun _ =>
      ihArgument inScope.2 resemble sameEssence
  | pi name info domain codomain ihDomain ihCodomain =>
    have resembleUnder : ∀ index, Resembles (Phrase.up left index) (Phrase.up right index) := by
      intro index
      cases index with
      | zero => exact .refl _
      | succ index =>
        simp only [Phrase.up, Phrase.rename_eq_replace]
        exact (resemble index).replace _
    exact .pi rfl (ihDomain inScope.1 resemble sameEssence)
      (ihCodomain inScope.2 resembleUnder fun part =>
        Phrase.essence_replace_congr part fun index => (resembleUnder index).essence_eq)
  | univ sort => exact .univ (sameEssence sort)
  | level bound => exact .level (sameEssence bound)
  | placeholder => exact inScope.1.elim
  | classified sort term _ ihTerm => exact ihTerm inScope.2 resemble sameEssence
  | _ => exact sameEssence _

theorem Resembles.replace_assigned {left right : List Term} {body : Term}
    (inScope : body.Scoped (fun _ _ _ => False) depth)
    (resemble : List.Forall₂ Resembles left right) :
    Resembles (body.replace (Phrase.assigned left)) (body.replace (Phrase.assigned right)) := by
  refine Similar.replace_congr inScope fun index => ?_
  induction resemble generalizing index with
  | nil => exact .refl _
  | cons first rest ih =>
    cases index with
    | zero => exact first
    | succ index => simpa [Phrase.assigned] using ih index

/-! ## Evaluation -/

/-- The body of a function without placeholders, in the scope of its parameters. -/
theorem State.Ground.scoped_body? {path : Path} {body : Term} (ground : state.Ground)
    (found : state.signature.body? path = some (depth, body)) (below : body.Below depth) :
    body.Scoped (fun _ _ _ => False) depth :=
  Phrase.Scoped.ground_iff below |>.2 (Phrase.ground_iff.1 (ground.body? found))

/-- A step brings in no placeholder. -/
theorem Unfolds.scoped_of_ground {term next : Term} (unfolds : Unfolds state term next)
    (ground : state.Ground) (inScope : term.Scoped (fun _ _ _ => False) depth) :
    next.Scoped (fun _ _ _ => False) depth := by
  induction unfolds with
  | placeholder => exact inScope.1.elim
  | @function path arity body term found below isConst full =>
    refine (ground.scoped_body? found below).replace fun index bounded => ?_
    have argumentsInScope := ((Phrase.scoped_iff_arguments term).1 inScope).2
    rw [Phrase.assigned_eq_getElem (by simpa [full] using bounded), List.getElem_map]
    exact argumentsInScope _ (List.mem_reverse.1 (List.getElem_mem _))
  | app _ ih => exact ⟨ih inScope.1, inScope.2⟩

/-- Terms that resemble each other unfold together. -/
theorem Unfolds.exists_of_resembles {term next other : Term} (unfolds : Unfolds state term next)
    (ground : state.Ground) (inScope : term.Scoped (fun _ _ _ => False) depth)
    (resembles : Resembles term other) (noLevel : ¬other.head.IsLevel) :
    ∃ next', Unfolds state other next' ∧ Resembles next next' := by
  induction unfolds generalizing other with
  | placeholder => exact inScope.1.elim
  | @function path arity body term found below isConst full =>
    obtain ⟨isConst', resemble⟩ := resembles.const_spine isConst noLevel
    have sameLength : term.arguments.length = other.arguments.length := by
      simpa using resemble.length_eq
    refine ⟨_, .function found below isConst' (sameLength ▸ full), ?_⟩
    apply Resembles.replace_assigned (ground.scoped_body? found below)
    rw [List.map_reverse, List.map_reverse, List.forall₂_reverse_iff]
    exact resemble
  | app _ ih =>
    obtain ⟨_, _, _, rfl, functions, arguments⟩ :=
      resembles.app_cases (Phrase.not_isLevel_of_head noLevel)
    obtain ⟨next', unfolds', nexts⟩ := ih inScope.1 functions noLevel
    exact ⟨_, .app unfolds', .app nexts arguments⟩

namespace HasNormalForm

/-- The normal forms of a term and of the level that consists of it. -/
theorem resembles_wrapped {term result result' : Term}
    (hasNormalForm : HasNormalForm state term result)
    (hasWrapped : HasNormalForm state (.level (Level.ofParts 0 [⟨term, 0⟩])) result') :
    Resembles result result' ∧ Resembles result' result := by
  obtain ⟨bound, hasBound, isResult⟩ := hasNormalForm.ofParts
  obtain rfl := hasWrapped.deterministic (.level hasBound)
  rcases isResult with rfl | rfl
  · exact ⟨.refl _, .refl _⟩
  · exact ⟨.wrapped _, .unwrapped _⟩

theorem essence_eq {phrase other result result' : Phrase category}
    (hasNormalForm : HasNormalForm state phrase result)
    (hasNormalForm' : HasNormalForm state other result') (same : phrase.essence = other.essence)
    (tame : result.Tame allowed) (tame' : result'.Tame allowed) :
    result.essence = result'.essence :=
  hasNormalForm.leads.whole same hasNormalForm hasNormalForm' tame tame'

/-- The normal forms of similar phrases are similar. -/
theorem similar {phrase other result result' : Phrase category}
    (hasNormalForm : HasNormalForm state phrase result)
    (hasNormalForm' : HasNormalForm state other result') (ground : state.Ground)
    (inScope : phrase.Scoped (fun _ _ _ => False) depth) (similar : Similar phrase other)
    (tame : result.Tame allowed) (tame' : result'.Tame allowed) : Similar result result' := by
  have hasPhrase := hasNormalForm
  induction hasNormalForm generalizing depth with
  | @step term next result unfolds hasNext ih =>
    rcases similar.eq_wrapped_or_not_isLevel unfolds.not_isLevel with rfl | noLevel
    · exact (hasPhrase.resembles_wrapped hasNormalForm').1
    · have noLevelHead := hasNormalForm'.not_isLevel_head noLevel tame'
      obtain ⟨next', unfolds', nexts⟩ :=
        unfolds.exists_of_resembles ground inScope similar noLevelHead
      exact ih (hasNormalForm'.of_unfolds unfolds') (unfolds.scoped_of_ground ground inScope) nexts
        tame tame' hasNext
  | @atomic category phrase isAtomic stuck =>
    cases phrase with
    | var | const =>
      rcases similar.eq_wrapped_or_not_isLevel not_false with rfl | noLevel
      · exact (hasPhrase.resembles_wrapped hasNormalForm').1
      · obtain rfl := isAtomic.eq_of_essence_eq noLevel similar.essence_eq
        obtain rfl := hasNormalForm'.deterministic hasPhrase
        exact AgreesUpTo.refl _
    | prop | sizeUniv | omega | noAtoms | noTerms =>
      exact hasPhrase.essence_eq hasNormalForm' similar tame tame'
    | _ => exact isAtomic.elim
  | @app function function' argument argument' info stuck hasFunction hasArgument
      ihFunction ihArgument =>
    rcases similar.eq_wrapped_or_not_isLevel not_false with rfl | noLevel
    · exact (hasPhrase.resembles_wrapped hasNormalForm').1
    · have noLevelHead := hasPhrase.not_isLevel_head not_false tame
      have same := similar.essence_eq.symm
      obtain ⟨otherFunction, otherArgument, otherInfo, rfl, functions, arguments⟩ :=
        similar.app_cases noLevel
      have stuck' : ∀ next, ¬Unfolds state (.app otherFunction otherArgument otherInfo) next := by
        intro next unfolds
        obtain ⟨next', unfolds', _⟩ := unfolds.exists_of_essence_eq same noLevelHead
        exact stuck next' unfolds'
      obtain ⟨_, _, rfl, hasFunction', hasArgument'⟩ := hasNormalForm'.app_cases stuck'
      exact .app (ihFunction hasFunction' inScope.1 functions tame.2.1 tame'.2.1 hasFunction)
        fun _ => ihArgument hasArgument' inScope.2 (arguments rfl) tame.2.2 tame'.2.2 hasArgument
  | @pi name info domain domain' codomain codomain' hasDomain hasCodomain ihDomain ihCodomain =>
    rcases similar.eq_wrapped_or_not_isLevel not_false with rfl | noLevel
    · exact (hasPhrase.resembles_wrapped hasNormalForm').1
    · obtain ⟨_, _, _, _, rfl, samePlicity, domains, codomains⟩ := similar.pi_cases noLevel
      obtain ⟨_, _, rfl, hasDomain', hasCodomain'⟩ := hasNormalForm'.pi_cases
      exact .pi samePlicity (ihDomain hasDomain' inScope.1 domains tame.1 tame'.1 hasDomain)
        (ihCodomain hasCodomain' inScope.2 codomains tame.2 tame'.2 hasCodomain)
  | @univ sort sort' hasSort _ =>
    rcases similar.eq_wrapped_or_not_isLevel not_false with rfl | noLevel
    · exact (hasPhrase.resembles_wrapped hasNormalForm').1
    · obtain ⟨other, rfl, sorts⟩ := similar.univ_cases noLevel
      obtain ⟨_, rfl, hasSort'⟩ := hasNormalForm'.univ_cases
      have same : sort.essence = other.essence := sorts.elim (congrArg _) id
      exact .univ (hasSort.essence_eq hasSort' same tame tame')
  | @level bound bound' hasBound _ =>
    cases similar with
    | refl =>
      obtain rfl := hasPhrase.deterministic hasNormalForm'
      exact AgreesUpTo.refl _
    | level same =>
      obtain ⟨_, rfl, hasBound'⟩ := hasNormalForm'.level_cases
      exact .level (hasBound.essence_eq hasBound' same tame tame')
    | wrapped => exact (hasPhrase.resembles_wrapped hasNormalForm').1
    | unwrapped => exact (hasNormalForm'.resembles_wrapped hasPhrase).2
  | placeholder => exact inScope.1.elim
  | @classified sort sort' term term' _ hasTerm _ ihTerm =>
    exact ihTerm hasNormalForm'.term inScope.2 similar tame
      (by cases result'; exact tame') hasTerm
  | _ => exact hasPhrase.essence_eq hasNormalForm' similar tame tame'

end HasNormalForm

end Families
